import ShapeSql.Proofs.Sql.Meaning

namespace ShapeSql.Sql

namespace World

variable {w : World}

/-- The world with those rows of its tables that are kept. -/
def keeping (w : World) (keep : String → Row → Bool) : World :=
  { w with database := { w.database with
      tables := fun name => (w.database.tables name).filter (keep name) } }

/-- The world after a statement, of which only what it deletes from tables is told. -/
def deleting (w : World) : Statement → World
  | .delete (.table name aliasName) filter =>
    w.keeping fun other row => other != name ||
      !(optionalTruth w [[(aliasName.getD name, row)]] filter).holds
  | _ => w

/-- The world after the DELETE statements of a batch, in their order. -/
def afterDeletes (w : World) (batch : Batch) : World := batch.foldl deleting w

theorem keeping_keeping (keep keep' : String → Row → Bool) :
    (w.keeping keep).keeping keep' = w.keeping fun name row => keep name row && keep' name row := by
  simp only [keeping, List.filter_filter, Bool.and_comm]

theorem keeping_all : (w.keeping fun _ _ => true) = w := by
  simp only [keeping, List.filter_true]

theorem afterDeletes_append (batch batch' : Batch) :
    w.afterDeletes (batch ++ batch') = (w.afterDeletes batch).afterDeletes batch' :=
  List.foldl_append

/-- Statements that are no DELETE delete nothing. -/
theorem afterDeletes_eq_self {batch : Batch}
    (h : ∀ st ∈ batch, ∀ source filter, st ≠ .delete source filter) : w.afterDeletes batch = w := by
  induction batch with
  | nil => rfl
  | cons st batch ih =>
    rw [List.forall_mem_cons] at h
    have hfirst : w.deleting st = w := by
      cases st with
      | delete source filter => exact (h.1 source filter rfl).elim
      | _ => rfl
    rw [afterDeletes, List.foldl_cons, hfirst]
    exact ih h.2

end World

section Sources

variable {w : World} {env : Env}

/-- The tuples of a single table variable. -/
theorem sourceTuples_tableVar (name aliasName : String) :
    sourceTuples w env (some (.of (.tableVar name (some aliasName)))) =
      (w.database.tableVars name).map fun row => [(aliasName, row)] := by
  simp only [Source.of, sourceTuples, joinsTuples, Factor.rows, Factor.reference, Option.getD_some,
    List.map_eq_flatMap]

/-- The tuples of two row sources that are joined. -/
theorem sourceTuples_inner (base other : Factor) (on : Expr) :
    sourceTuples w env (some ((Source.of base).join .inner other on)) =
      (base.rows w env).flatMap fun row =>
        ((other.rows w env).map fun found => [(base.reference, row), (other.reference, found)]).filter
          fun t => on.holds w (t :: env) := by
  simp only [Source.of, Source.join, List.nil_append, sourceTuples, joinsTuples, JoinKind.padded,
    List.flatMap_singleton', List.singleton_append]
  rfl

/-- The tuples of two table variables that are joined. -/
theorem sourceTuples_joined (first second left right : String) (on : Expr) :
    sourceTuples w env (some ((Source.of (.tableVar first (some left))).join .inner
      (.tableVar second (some right)) on)) =
        (w.database.tableVars first).flatMap fun row =>
          ((w.database.tableVars second).map fun other => [(left, row), (right, other)]).filter
            fun t => on.holds w (t :: env) := by
  rw [sourceTuples_inner]
  simp only [Factor.rows, Factor.reference, Option.getD_some]

end Sources

end ShapeSql.Sql
