import ShapeSql.Proofs.Sql.Filled
import ShapeSql.Proofs.Sql.Leaf
import ShapeSql.Proofs.Sql.Scope

namespace ShapeSql.Sql

/-- The column that is assigned, none where a rule has yet to decide. -/
def Assignment.column? : Assignment → Option String
  | .set column _ => some column
  | .hole _ => none

namespace Statement

/-- The assignments of an update or a merge. -/
def assignments : Statement → List Assignment
  | .update u => u.assignments
  | .merge m => m.matchedUpdate
  | .declare _ _ | .delete _ _ | .insert _ _ _ | .query _ => []

/-- The lists of columns: those declared, inserted, assigned and captured. -/
def columnLists : Statement → List (List String)
  | .declare _ columns => [columns.map ColumnDef.name]
  | .insert _ columns _ => [columns]
  | .merge m => [m.matchedUpdate.filterMap Assignment.column?,
      m.notMatchedInsert.elim [] MergeInsert.columns, m.output.elim [] OutputInto.columns]
  | .update u => [u.assignments.filterMap Assignment.column?]
  | .delete _ _ | .query _ => []

/-- No list of columns names one twice, up to case. -/
def WritesOnce (st : Statement) : Prop := ∀ names ∈ st.columnLists, Apart names

instance (st : Statement) : Decidable st.WritesOnce :=
  inferInstanceAs (Decidable (∀ names ∈ st.columnLists, Apart names))

/-- No rule decides on an assignment. -/
def Spelled (st : Statement) : Prop := ∀ a ∈ st.assignments, a.column?.isSome = true

end Statement

section Apart

variable {name : String} {names others : List String}

theorem Apart.sublist (h : Apart names) (hsublist : others.Sublist names) : Apart others :=
  List.Nodup.sublist (hsublist.map lowerAscii) h

theorem apart_cons :
    Apart (name :: names) ↔ (∀ other ∈ names, sameName name other = false) ∧ Apart names := by
  have hnew : lowerAscii name ∉ names.map lowerAscii ↔
      ∀ other ∈ names, sameName name other = false := by
    simp only [List.mem_map, not_exists, not_and, sameName, beq_eq_false_iff_ne]
    exact forall₂_congr fun _ _ => ne_comm
  rw [Apart, List.map_cons, List.nodup_cons, hnew]
  rfl

theorem Statement.writesOnce_iff_apart {st : Statement} (h : st.columnLists = [names]) :
    st.WritesOnce ↔ Apart names := by
  rw [WritesOnce, h, List.forall_mem_singleton]

end Apart

/-- Assignments made from a list are of the columns that it leads to. -/
theorem columns_map_set {α : Type} (items : List α) (column : α → String) (value : α → Expr) :
    (items.map fun a => Assignment.set (column a) (value a)).filterMap Assignment.column? =
      items.map column := by
  rw [List.filterMap_map, ← List.filterMap_eq_map]
  rfl

section Filled

variable {f : HoleFiller} {st : Statement}

/-- What leaves nothing open leaves no assignment open. -/
theorem Statement.spelled_of_leaves (h : st.collect .leaves () = []) : st.Spelled := by
  have hspelled : ∀ assignments : List Assignment,
      assignments.flatMap (Assignment.collect .leaves ()) = [] →
      ∀ a ∈ assignments, a.column?.isSome = true := by
    intro assignments hnone a ha
    cases a with
    | set column value => rfl
    | hole id => exact nomatch List.flatMap_eq_nil_iff.mp hnone _ ha
  cases st with
  | update u => exact hspelled _ (List.append_eq_nil_iff.mp h).1
  | merge m =>
    simp only [collect, Merge.collect, List.append_eq_nil_iff] at h
    exact hspelled _ h.2.2.2.1
  | declare _ _ | delete _ _ | insert _ _ _ | query _ => exact List.forall_mem_nil _

/-- Filling leaves spelled out assignments to their columns. -/
theorem columns_assignmentsFilled {assignments : List Assignment}
    (h : ∀ a ∈ assignments, a.column?.isSome = true) :
    (assignmentsFilled f assignments).filterMap Assignment.column? =
      assignments.filterMap Assignment.column? := by
  induction assignments with
  | nil => rfl
  | cons a rest ih =>
    rw [List.forall_mem_cons] at h
    cases a with
    | set column value =>
      rw [assignmentsFilled, List.filterMap_cons, List.filterMap_cons, ih h.2]
      rfl
    | hole id => cases h.1

theorem Statement.columnLists_filled (h : st.Spelled) : (st.filled f).columnLists = st.columnLists := by
  cases st with
  | declare _ _ | delete _ _ | insert _ _ _ | query _ => rfl
  | update u => exact congrArg (fun columns => [columns]) (columns_assignmentsFilled h)
  | merge m =>
    have hassigned : (assignmentsFilled f m.matchedUpdate).filterMap Assignment.column? =
        m.matchedUpdate.filterMap Assignment.column? := columns_assignmentsFilled h
    simp only [filled, columnLists, Merge.filled, hassigned, Option.elim_map]
    rfl

theorem Statement.writesOnce_filled (h : st.Spelled) : (st.filled f).WritesOnce ↔ st.WritesOnce := by
  rw [WritesOnce, columnLists_filled h]
  rfl

/-- A batch of spelled out assignments writes once filled if it does before. -/
theorem Batch.writesOnce_filled {batch : Batch} {subs : Substitution} (h : ∀ st ∈ batch, st.Spelled) :
    (∀ st ∈ batch.filled subs, st.WritesOnce) ↔ ∀ st ∈ batch, st.WritesOnce := by
  rw [Batch.filled, List.forall_mem_map]
  exact forall₂_congr fun st hst => Statement.writesOnce_filled (h st hst)

end Filled

end ShapeSql.Sql
