import Mathlib.Data.List.Perm.Basic
import ShapeSql.Error
import ShapeSql.Value.Basic

namespace ShapeSql

namespace Value

/-- Values that are equal up to the order of the members of lists, at any depth. -/
inductive Reordered : Value → Value → Prop where
  | same (v : Value) : Reordered v v
  | list {as bs cs : List Value} : List.Forall₂ Reordered as bs → bs.Perm cs →
      Reordered (.list as) (.list cs)
  | record {as bs : Record} : as.names = bs.names →
      List.Forall₂ Reordered (as.map Prod.snd) (bs.map Prod.snd) → Reordered (.record as) (.record bs)

theorem Reordered.isNull_eq {a b : Value} (h : a.Reordered b) : a.isNull = b.isNull := by
  cases h with
  | same _ | list _ _ | record _ _ => rfl

/-- Lists of one member each agree in it. -/
theorem Reordered.of_singletons {a b : Value} (h : (Value.list [a]).Reordered (.list [b])) :
    a.Reordered b := by
  cases h with
  | same _ => exact .same _
  | list hpaired hperm =>
    rw [List.perm_singleton.mp hperm] at hpaired
    exact (List.forall₂_cons.mp hpaired).1

/-- Records agree in their first members, and in the rest. -/
theorem Reordered.of_records {m n : String × Value} {ms ns : Record}
    (h : (Value.record (m :: ms)).Reordered (.record (n :: ns))) :
    m.2.Reordered n.2 ∧ (Value.record ms).Reordered (.record ns) := by
  cases h with
  | same _ => exact ⟨.same _, .same _⟩
  | record hnames hvalues =>
    obtain ⟨hfirst, hrest⟩ := List.forall₂_cons.mp hvalues
    exact ⟨hfirst, .record (List.cons.inj hnames).2 hrest⟩

/-- Both are values, equal up to the order of collections, or both are refused alike. -/
def ReorderedResults : Except Error Value → Except Error Value → Prop
  | .ok a, .ok b => a.Reordered b
  | .error e, .error f => e = f
  | _, _ => False

end Value

namespace Record

/-- Members of the same names in the same order, with values that are equal up to the order of
collections. -/
def Reordered (as bs : Record) : Prop := List.Forall₂ (fun a b => a.1 = b.1 ∧ a.2.Reordered b.2) as bs

variable {as bs : Record}

theorem Reordered.value (h : as.Reordered bs) : (Value.record as).Reordered (.record bs) := by
  have hboth : as.names = bs.names ∧
      List.Forall₂ Value.Reordered (as.map Prod.snd) (bs.map Prod.snd) := by
    induction h with
    | nil => exact ⟨rfl, .nil⟩
    | cons hab _ ih => exact ⟨congrArg₂ List.cons hab.1 ih.1, .cons hab.2 ih.2⟩
  exact .record hboth.1 hboth.2

theorem Reordered.isAllNull_eq (h : as.Reordered bs) : as.isAllNull = bs.isAllNull := by
  induction h with
  | nil => rfl
  | @cons a b as bs hab _ ih =>
    rw [isAllNull, isAllNull] at ih ⊢
    rw [List.all_cons, List.all_cons, hab.2.isNull_eq, ih]

theorem Reordered.insert (h : as.Reordered bs) (name : String) {a b : Value} (hab : a.Reordered b) :
    (as.insert name a).Reordered (bs.insert name b) := by
  induction h with
  | nil => exact .cons ⟨rfl, hab⟩ .nil
  | @cons m n as bs hmn hrest ih =>
    obtain ⟨mname, m⟩ := m
    obtain ⟨nname, n⟩ := n
    obtain ⟨rfl, hvalue⟩ := hmn
    rw [Record.insert, Record.insert]
    split
    · exact .cons ⟨rfl, hab⟩ hrest
    · exact .cons ⟨rfl, hvalue⟩ ih

theorem Reordered.ofMembers (h : as.Reordered bs) : (ofMembers as).Reordered (ofMembers bs) := by
  have hfold : ∀ {as bs : Record}, as.Reordered bs → ∀ {r q : Record}, r.Reordered q →
      (as.foldl (fun r member => r.insert member.1 member.2) r).Reordered
        (bs.foldl (fun r member => r.insert member.1 member.2) q) := by
    intro as bs h
    induction h with
    | nil => exact fun hrq => hrq
    | @cons m n as bs hmn _ ih =>
      intro r q hrq
      rw [List.foldl_cons, List.foldl_cons, hmn.1]
      exact ih (hrq.insert n.1 hmn.2)
  exact hfold h .nil

end Record

end ShapeSql
