import ShapeSql.Proofs.Plan.Tuples
import ShapeSql.Proofs.Value.Identity

namespace ShapeSql

open Sql

/-- The number that a value is, if it is a whole number. -/
def Value.int? : Value → Option Int
  | .i32 n => some n.toInt
  | .i64 n => some n.toInt
  | _ => none

/-- The order of whole numbers. -/
def Value.less (a b : Value) : Bool :=
  match a.int?, b.int? with
  | some m, some n => decide (m < n)
  | _, _ => false

namespace Sql

/-- Compares whole numbers by their order, and all values by what they are. -/
def Dialect.literal : Dialect where
  compare op a b := match op with
    | .eq => decide (a = b)
    | .ne => decide (a ≠ b)
    | .lt => a.less b
    | .le => a.less b || decide (a = b)
    | .gt => b.less a
    | .ge => b.less a || decide (a = b)
  like a pattern := decide (a = pattern)
  before := Value.less
  equal := by
    constructor
    · intro a
      exact decide_eq_true rfl
    · intro a b h
      exact decide_eq_true (of_decide_eq_true h).symm
    · intro a b c h h'
      exact decide_eq_true ((of_decide_eq_true h).trans (of_decide_eq_true h'))

/-- Tables by their names, and table variables by theirs. -/
def Database.literal (tables tableVars : List (String × List Row)) : Database where
  tables name := (tables.lookup name).getD []
  tableVars name := (tableVars.lookup name).getD []

instance (row : Row) (rows : List Row) : Decidable (row ∈ rows) :=
  decidable_of_iff (∃ other ∈ rows, row = other)
    ⟨fun ⟨_, hmem, hsame⟩ => hsame ▸ hmem, fun hmem => ⟨row, hmem, rfl⟩⟩

instance (d : Dialect) (key : List Column) (a b : Row) : Decidable (d.sameKey key a b) :=
  inferInstanceAs (Decidable (∀ column ∈ key, d.compare .eq (a.cell column.name)
    (b.cell column.name) = true))

instance (db : Database) (d : Dialect) (s : Schema) : Decidable (db.Keyed d s) :=
  decidable_of_iff
    ((∀ t ∈ s.tables, ∀ row ∈ db.tables t.name, ∀ column ∈ t.keyColumns,
        (row.cell column.name).isNull = false) ∧
      ∀ t ∈ s.tables, t.hasKey = true →
        (db.tables t.name).Pairwise fun a b => ¬d.sameKey t.keyColumns a b)
    ⟨fun h => ⟨h.1, h.2⟩, fun h => ⟨h.present, h.unique⟩⟩

end Sql

end ShapeSql
