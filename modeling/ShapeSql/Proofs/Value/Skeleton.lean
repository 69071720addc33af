import Mathlib.Data.List.Forall2
import Mathlib.Data.Option.Basic
import ShapeSql.Value.Basic

/-!
What command text may depend on: the skeleton of a value. It keeps the members of records and lists,
nulls and empty texts; any other scalar is as good as another. Two values of one skeleton are alike
at every path, and so are their elements.
-/

namespace ShapeSql

namespace Value

/-- A scalar that is neither null nor the empty text. -/
def isFull : Value → Bool
  | .bool _ | .i32 _ | .i64 _ | .f64 _ | .bytes _ | .uuid _ => true
  | .text s => !s.isEmpty
  | .null | .list _ | .record _ => false

mutual

/-- The value with one and the same scalar in the place of every full one. -/
def skeleton : Value → Value
  | .null => .null
  | .text s => if s.isEmpty then .text "" else .bool true
  | .list items => .list (skeletons items)
  | .record members => .record (memberSkeletons members)
  | .bool _ | .i32 _ | .i64 _ | .f64 _ | .bytes _ | .uuid _ => .bool true

def skeletons : List Value → List Value
  | [] => []
  | v :: vs => v.skeleton :: skeletons vs

def memberSkeletons : List (String × Value) → List (String × Value)
  | [] => []
  | (name, v) :: rest => (name, v.skeleton) :: memberSkeletons rest

end

/-- Values that differ in full scalars at most. Records need not have their members in one order, as
long as each name finds values that are alike, or none, in both. -/
inductive Alike : Value → Value → Prop where
  | null : Alike .null .null
  | empty : Alike (.text "") (.text "")
  | full {a b : Value} : a.isFull = true → b.isFull = true → Alike a b
  | list {as bs : List Value} : List.Forall₂ Alike as bs → Alike (.list as) (.list bs)
  | record {as bs : Record} :
    (∀ name, Option.Rel Alike (Record.get? as name) (Record.get? bs name)) →
      Alike (.record as) (.record bs)

theorem isNull_of_isFull {v : Value} (h : v.isFull = true) : v.isNull = false := by
  cases v <;> simp_all [isFull, isNull]

theorem isRecord_of_isFull {v : Value} (h : v.isFull = true) : v.isRecord = false := by
  cases v <;> simp_all [isFull, isRecord]

theorem isNullOrEmpty_of_isFull {v : Value} (h : v.isFull = true) : v.isNullOrEmpty = false := by
  cases v <;> simp_all [isFull, isNullOrEmpty]

theorem items_of_isFull {v : Value} (h : v.isFull = true) : v.items = [v] := by
  cases v <;> simp_all [isFull, items]

theorem entrySteps_of_isFull {v : Value} (h : v.isFull = true) (step : String)
    (steps : List String) : v.entrySteps (step :: steps) = .null := by
  cases v <;> simp_all [isFull, entrySteps]

namespace Alike

variable {a b : Value}

theorem isNull_eq (h : a.Alike b) : a.isNull = b.isNull := by
  cases h with
  | null | empty | list _ | record _ => rfl
  | full ha hb => rw [isNull_of_isFull ha, isNull_of_isFull hb]

theorem isRecord_eq (h : a.Alike b) : a.isRecord = b.isRecord := by
  cases h with
  | null | empty | list _ | record _ => rfl
  | full ha hb => rw [isRecord_of_isFull ha, isRecord_of_isFull hb]

theorem isNullOrEmpty_eq (h : a.Alike b) : a.isNullOrEmpty = b.isNullOrEmpty := by
  cases h with
  | null | empty | record _ => rfl
  | full ha hb => rw [isNullOrEmpty_of_isFull ha, isNullOrEmpty_of_isFull hb]
  | list items =>
    cases items with
    | nil | cons _ _ => rfl

theorem items (h : a.Alike b) : List.Forall₂ Alike a.items b.items := by
  cases h with
  | null => exact .nil
  | empty => exact .cons .empty .nil
  | full ha hb =>
    rw [items_of_isFull ha, items_of_isFull hb]
    exact .cons (.full ha hb) .nil
  | list items => exact items
  | record members => exact .cons (.record members) .nil

/-- Values that are alike pairwise stay so without the nulls among them. -/
theorem filter_present {as bs : List Value} (h : List.Forall₂ Alike as bs) :
    List.Forall₂ Alike (as.filter (!·.isNull)) (bs.filter (!·.isNull)) := by
  induction h with
  | nil => exact .nil
  | @cons a b as bs hab _ ih =>
    rw [List.filter_cons, List.filter_cons, hab.isNull_eq]
    split
    · exact .cons hab ih
    · exact ih

theorem presentItems (h : a.Alike b) : List.Forall₂ Alike a.presentItems b.presentItems :=
  filter_present h.items

/-- The same path finds values that are alike. -/
theorem entrySteps (h : a.Alike b) (steps : List String) :
    (a.entrySteps steps).Alike (b.entrySteps steps) := by
  induction steps generalizing a b with
  | nil => exact h
  | cons step steps ih =>
    cases h with
    | null | empty | list _ => exact .null
    | full ha hb =>
      rw [entrySteps_of_isFull ha, entrySteps_of_isFull hb]
      exact .null
    | @record as bs members =>
      have hmember : ((Record.get? as step).getD .null).Alike ((Record.get? bs step).getD .null) := by
        have hfound := members step
        cases hx : Record.get? as step with
        | none =>
          cases hy : Record.get? bs step with
          | none => exact .null
          | some _ => rw [hx, hy] at hfound; cases hfound
        | some _ =>
          cases hy : Record.get? bs step with
          | none => rw [hx, hy] at hfound; cases hfound
          | some _ =>
            rw [hx, hy] at hfound
            cases hfound with
            | some hvalues => exact hvalues
      exact ih hmember

theorem entry (h : a.Alike b) (path : Path) : (a.entry path).Alike (b.entry path) :=
  h.entrySteps path.steps

end Alike

theorem find?_memberSkeletons (wanted : String → Bool) (members : Record) :
    (memberSkeletons members).find? (fun m => wanted m.1) =
      (members.find? fun m => wanted m.1).map fun m => (m.1, m.2.skeleton) := by
  induction members with
  | nil => rfl
  | cons m rest ih =>
    obtain ⟨n, v⟩ := m
    rw [memberSkeletons]
    by_cases hfound : wanted n = true
    · rw [List.find?_cons_of_pos (by exact hfound), List.find?_cons_of_pos (by exact hfound)]
      rfl
    · rw [List.find?_cons_of_neg (by exact hfound), List.find?_cons_of_neg (by exact hfound), ih]

/-- The same name finds the skeletons of the values it found before. -/
theorem get?_memberSkeletons (members : Record) (name : String) :
    Record.get? (memberSkeletons members) name = (Record.get? members name).map skeleton := by
  have hexact := find?_memberSkeletons (· == name) members
  have hcased := find?_memberSkeletons (sameName · name) members
  simp only [Record.get?, findNamed, hexact, hcased]
  cases members.find? fun m => m.1 == name with
  | some _ => rfl
  | none =>
    cases members.find? fun m => sameName m.1 name with
    | some _ => rfl
    | none => rfl

theorem mem_of_get? {members : Record} {name : String} {v : Value}
    (h : Record.get? members name = some v) : ∃ m ∈ members, m.2 = v := by
  obtain ⟨m, hm, hv⟩ := Option.map_eq_some_iff.mp h
  exact ⟨m, mem_of_findNamed hm, hv⟩

theorem isFull_of_skeleton_eq {v : Value} (h : v.skeleton = .bool true) : v.isFull = true := by
  cases v with
  | null | list _ | record _ => cases h
  | text s =>
    simp only [skeleton] at h
    split at h
    · cases h
    · rename_i hs
      simpa [isFull] using hs
  | bool _ | i32 _ | i64 _ | f64 _ | bytes _ | uuid _ => rfl

theorem alike_text_of_skeleton_eq {s : String} {b : Value} (h : (text s).skeleton = b.skeleton) :
    (text s).Alike b := by
  by_cases hs : s.isEmpty = true
  · rw [String.isEmpty_iff.mp hs] at h ⊢
    cases b with
    | text t =>
      simp only [skeleton] at h
      by_cases ht : t.isEmpty = true
      · rw [String.isEmpty_iff.mp ht]
        exact .empty
      · rw [if_neg ht] at h
        cases h
    | _ => cases h
  · have hfull : (text s).isFull = true := by simpa [isFull] using hs
    have hbool : (text s).skeleton = .bool true := by rw [skeleton, if_neg hs]
    exact .full hfull (isFull_of_skeleton_eq (h.symm.trans hbool))

mutual

theorem alike_of_skeleton_eq : ∀ a b : Value, a.skeleton = b.skeleton → a.Alike b
  | .null, b, h => by
    cases b with
    | null => exact .null
    | text t =>
      simp only [skeleton] at h
      split at h <;> cases h
    | _ => cases h
  | .text s, _, h => alike_text_of_skeleton_eq h
  | .list as, b, h => by
    cases b with
    | list bs =>
      simp only [skeleton, Value.list.injEq] at h
      exact .list (forall₂_of_skeletons_eq as bs h)
    | text t =>
      simp only [skeleton] at h
      split at h <;> cases h
    | _ => cases h
  | .record as, b, h => by
    cases b with
    | record bs =>
      simp only [skeleton, Value.record.injEq] at h
      apply Alike.record
      intro name
      -- A member found in one record is found in the other, for the names are the same.
      have hget := get?_memberSkeletons as name
      rw [h, get?_memberSkeletons] at hget
      cases hx : Record.get? as name with
      | none =>
        rw [hx, Option.map_none, Option.map_eq_none_iff] at hget
        rw [hget]
        exact .none
      | some v =>
        rw [hx, Option.map_some, Option.map_eq_some_iff] at hget
        obtain ⟨w, hw, hskeleton⟩ := hget
        obtain ⟨m, hm, rfl⟩ := mem_of_get? hx
        rw [hw]
        exact .some (member_alike_of_skeleton_eq as m hm w hskeleton.symm)
    | text t =>
      simp only [skeleton] at h
      split at h <;> cases h
    | _ => cases h
  | .bool _, _, h | .i32 _, _, h | .i64 _, _, h | .f64 _, _, h | .bytes _, _, h | .uuid _, _, h =>
    .full rfl (isFull_of_skeleton_eq h.symm)

theorem forall₂_of_skeletons_eq :
    ∀ as bs : List Value, skeletons as = skeletons bs → List.Forall₂ Alike as bs
  | [], [], _ => .nil
  | [], _ :: _, h => by simp [skeletons] at h
  | _ :: _, [], h => by simp [skeletons] at h
  | a :: as, b :: bs, h => by
    simp only [skeletons, List.cons.injEq] at h
    exact .cons (alike_of_skeleton_eq a b h.1) (forall₂_of_skeletons_eq as bs h.2)

theorem member_alike_of_skeleton_eq :
    ∀ (members : Record) (m : String × Value), m ∈ members →
      ∀ b : Value, m.2.skeleton = b.skeleton → m.2.Alike b
  | [], m, hm, _, _ => by cases hm
  | (n, v) :: rest, m, hm, b, h => by
    rcases List.mem_cons.mp hm with rfl | hrest
    · exact alike_of_skeleton_eq v b h
    · exact member_alike_of_skeleton_eq rest m hrest b h

end

end Value

end ShapeSql
