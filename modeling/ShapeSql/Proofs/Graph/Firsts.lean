import Mathlib.Data.List.Forall2
import ShapeSql.Proofs.Graph.Grouping

namespace ShapeSql

section Firsts

variable {α β κ : Type}

/-- Whatever is looked for, both lists show it first in the same element. -/
def SameFirsts (xs ys : List α) : Prop := ∀ q : α → Bool, xs.find? q = ys.find? q

namespace SameFirsts

variable {xs ys zs : List α}

theorem refl (xs : List α) : SameFirsts xs xs := fun _ => rfl

theorem trans (hxy : SameFirsts xs ys) (hyz : SameFirsts ys zs) : SameFirsts xs zs :=
  fun q => (hxy q).trans (hyz q)

theorem map (h : SameFirsts xs ys) (f : α → β) : SameFirsts (xs.map f) (ys.map f) := by
  intro q
  rw [List.find?_map, List.find?_map, h]

theorem filter (h : SameFirsts xs ys) (p : α → Bool) : SameFirsts (xs.filter p) (ys.filter p) := by
  intro q
  rw [List.find?_filter, List.find?_filter, h]

theorem eq_nil (h : SameFirsts xs []) : xs = [] := by
  cases xs with
  | nil => rfl
  | cons a xs =>
    have hfirst := h fun _ => true
    cases hfirst

theorem exists_cons {a : α} (h : SameFirsts (a :: xs) ys) : ∃ rest, ys = a :: rest := by
  cases ys with
  | nil => cases h.eq_nil
  | cons b ys =>
    have hfirst := h fun _ => true
    cases hfirst
    exact ⟨ys, rfl⟩

/-- A product shows its first factor. -/
theorem left (xs : List α) {ys : List β} (h : ys ≠ []) :
    SameFirsts (xs.flatMap fun a => ys.map fun _ => a) xs := by
  intro q
  induction xs with
  | nil => rfl
  | cons a xs ih =>
    rw [List.flatMap_cons, List.find?_append, ih, List.find?_cons]
    cases hq : q a with
    | false =>
      have hnone : (ys.map fun _ => a).find? q = none := by
        rw [List.find?_eq_none]
        intro x hx
        obtain ⟨_, _, rfl⟩ := List.mem_map.mp hx
        simp [hq]
      rw [hnone, Option.none_or]
    | true =>
      obtain ⟨b, ys, rfl⟩ := List.exists_cons_of_ne_nil h
      rw [List.map_cons, List.find?_cons, hq, Option.some_or]

/-- A product shows its second factor. -/
theorem right {xs : List α} (h : xs ≠ []) (ys : List β) :
    SameFirsts (xs.flatMap fun _ => ys) ys := by
  intro q
  obtain ⟨a, xs, rfl⟩ := List.exists_cons_of_ne_nil h
  rw [List.flatMap_cons, List.find?_append]
  cases hq : ys.find? q with
  | some b => rw [Option.some_or]
  | none =>
    rw [Option.none_or, List.find?_eq_none]
    intro x hx
    obtain ⟨_, _, hx⟩ := List.mem_flatMap.mp hx
    exact List.find?_eq_none.mp hq x hx

/-- The starts of concatenated rows are the first factor. -/
theorem take {xss yss : List (List α)} {n : Nat} (hlength : ∀ xs ∈ xss, xs.length = n)
    (h : yss ≠ []) :
    SameFirsts ((xss.flatMap fun xs => yss.map (xs ++ ·)).map (List.take n)) xss := by
  have hstarts : (xss.flatMap fun xs => yss.map (xs ++ ·)).map (List.take n) =
      xss.flatMap fun xs => yss.map fun _ => xs := by
    rw [List.map_flatMap]
    apply List.flatMap_congr
    intro xs hxs
    rw [List.map_map]
    apply List.map_congr_left
    intro ys _
    rw [Function.comp_apply, List.take_left' (hlength xs hxs)]
  rw [hstarts]
  exact left xss h

/-- The ends of concatenated rows are the second factor. -/
theorem drop {xss yss : List (List α)} {n : Nat} (hlength : ∀ xs ∈ xss, xs.length = n)
    (h : xss ≠ []) :
    SameFirsts ((xss.flatMap fun xs => yss.map (xs ++ ·)).map (List.drop n)) yss := by
  have hends : (xss.flatMap fun xs => yss.map (xs ++ ·)).map (List.drop n) =
      xss.flatMap fun _ => yss := by
    rw [List.map_flatMap]
    apply List.flatMap_congr
    intro xs hxs
    rw [List.map_map, List.map_congr_left (g := id), List.map_id]
    intro ys _
    rw [Function.comp_apply, List.drop_left' (hlength xs hxs), id]
  rw [hends]
  exact right h yss

end SameFirsts

variable [DecidableEq κ] (key : α → κ)

/-- The firsts of each key depend on what the list shows first alone. -/
theorem firstsBy_congr {xs ys : List α} (h : SameFirsts xs ys) :
    firstsBy key xs = firstsBy key ys := by
  match xs with
  | [] =>
    have hnil : ys = [] := SameFirsts.eq_nil fun q => (h q).symm
    rw [hnil]
  | a :: xs =>
    obtain ⟨rest, rfl⟩ := h.exists_cons
    have hother := h.filter fun b => decide (key b ≠ key a)
    rw [List.filter_cons_of_neg (by simp), List.filter_cons_of_neg (by simp)] at hother
    rw [firstsBy_cons, firstsBy_cons, firstsBy_congr hother]
termination_by xs.length
decreasing_by
  have := List.length_filter_le (fun b => decide (key b ≠ key a)) xs
  simp only [List.length_cons]
  omega

theorem firstsBy_map (f : β → α) (xs : List β) :
    firstsBy key (xs.map f) = (firstsBy (fun b => key (f b)) xs).map f := by
  match xs with
  | [] => rfl
  | b :: xs =>
    rw [List.map_cons, firstsBy_cons, firstsBy_cons, List.map_cons, List.filter_map, firstsBy_map]
    rfl
termination_by xs.length
decreasing_by
  have := List.length_filter_le ((fun b_1 => decide (key b_1 ≠ key (f b))) ∘ f) xs
  simp only [List.length_cons]
  omega

section Groups

variable {μ : Type} {members : List μ} {keyOf : μ → κ} {rows : μ → List α}

/-- Among rows of members with keys of their own, those with the key of a member are its own. -/
theorem filter_flatMap_eq (hkey : ∀ m ∈ members, ∀ a ∈ rows m, key a = keyOf m)
    (hdistinct : (members.map keyOf).Nodup) {m : μ} (hm : m ∈ members) :
    (members.flatMap rows).filter (fun a => decide (key a = keyOf m)) = rows m := by
  induction members with
  | nil => cases hm
  | cons first rest ih =>
    rw [List.map_cons, List.nodup_cons] at hdistinct
    rw [List.flatMap_cons, List.filter_append]
    have hrest := ih (fun n hn => hkey n (List.mem_cons_of_mem _ hn)) hdistinct.2
    rcases List.mem_cons.mp hm with rfl | hm
    · have hown : (rows m).filter (fun a => decide (key a = keyOf m)) = rows m := by
        apply List.filter_eq_self.mpr
        intro a ha
        exact decide_eq_true (hkey m List.mem_cons_self a ha)
      have hothers : (rest.flatMap rows).filter (fun a => decide (key a = keyOf m)) = [] := by
        apply List.filter_eq_nil_iff.mpr
        intro a ha
        obtain ⟨n, hn, ha⟩ := List.mem_flatMap.mp ha
        rw [hkey n (List.mem_cons_of_mem _ hn) a ha, decide_eq_true_eq]
        intro heq
        exact hdistinct.1 (List.mem_map.mpr ⟨n, hn, heq⟩)
      rw [hown, hothers, List.append_nil]
    · have hfirst : (rows first).filter (fun a => decide (key a = keyOf m)) = [] := by
        apply List.filter_eq_nil_iff.mpr
        intro a ha
        rw [hkey first List.mem_cons_self a ha, decide_eq_true_eq]
        intro heq
        exact hdistinct.1 (List.mem_map.mpr ⟨m, hm, heq.symm⟩)
      rw [hfirst, List.nil_append, hrest hm]

/-- The firsts of rows of members with keys of their own: one for each member, in order, and one of its
own rows. -/
theorem firstsBy_flatMap (hkey : ∀ m ∈ members, ∀ a ∈ rows m, key a = keyOf m)
    (hrows : ∀ m ∈ members, rows m ≠ []) (hdistinct : (members.map keyOf).Nodup) :
    List.Forall₂ (fun m a => a ∈ rows m) members (firstsBy key (members.flatMap rows)) := by
  induction members with
  | nil => exact .nil
  | cons m rest ih =>
    rw [List.map_cons, List.nodup_cons] at hdistinct
    obtain ⟨a, others, hown⟩ := List.exists_cons_of_ne_nil (hrows m List.mem_cons_self)
    have hfirst : ∀ b ∈ rows m, key b = keyOf m := hkey m List.mem_cons_self
    have ha : key a = keyOf m := hfirst a (hown ▸ List.mem_cons_self)
    have hothers : others.filter (fun b => decide (key b ≠ key a)) = [] := by
      apply List.filter_eq_nil_iff.mpr
      intro b hb
      rw [hfirst b (hown ▸ List.mem_cons_of_mem _ hb), ha]
      simp
    have hrest : (rest.flatMap rows).filter (fun b => decide (key b ≠ key a)) =
        rest.flatMap rows := by
      apply List.filter_eq_self.mpr
      intro b hb
      obtain ⟨n, hn, hb⟩ := List.mem_flatMap.mp hb
      rw [hkey n (List.mem_cons_of_mem _ hn) b hb, ha, decide_eq_true_eq]
      intro heq
      exact hdistinct.1 (List.mem_map.mpr ⟨n, hn, heq⟩)
    rw [List.flatMap_cons, hown, List.cons_append, firstsBy_cons, List.filter_append, hothers, hrest,
      List.nil_append]
    refine .cons (hown ▸ List.mem_cons_self) ?_
    exact ih (fun n hn => hkey n (List.mem_cons_of_mem _ hn))
      (fun n hn => hrows n (List.mem_cons_of_mem _ hn)) hdistinct.2

end Groups

end Firsts

end ShapeSql
