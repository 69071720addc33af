import ShapeSql.Proofs.Sql.ColumnLists

namespace ShapeSql.Sql

/-- The table that a row source is, none for a variable or a query. -/
def Factor.table? : Factor → Option String
  | .table name _ => some name
  | .tableVar _ _ | .derived _ _ => none

/-- The table that an update changes. Its target is one of its row sources, which may be a variable, or
it names the table itself. -/
def Update.table? (u : Update) : Option String :=
  match u.source with
  | none => some u.target
  | some source =>
    let factors := source.base :: source.joins.map Join.factor
    match factors.find? fun factor => sameName factor.reference u.target with
    | some factor => factor.table?
    | none => some u.target

/-- The columns of tables that a statement puts something into; what goes into variables is left out. -/
def Statement.tableWrites : Statement → List (String × List String)
  | .insert (.table name) columns _ => [(name, columns)]
  | .merge m => m.target.table?.elim [] fun name =>
    [(name, m.matchedUpdate.filterMap Assignment.column?),
      (name, m.notMatchedInsert.elim [] MergeInsert.columns)]
  | .update u => u.table?.elim [] fun name =>
    [(name, u.assignments.filterMap Assignment.column?)]
  | .declare _ _ | .delete _ _ | .insert (.tableVar _) _ _ | .query _ => []

/-- An update whose target is its first row source changes the table that this is, if it is one. -/
theorem Update.table?_of_base {u : Update} {source : Source} (hsource : u.source = some source)
    (hbase : source.base.reference = u.target) : u.table? = source.base.table? := by
  rw [table?, hsource]
  simp only [List.find?_cons, hbase, sameName_self]

theorem Statement.tableWrites_update {u : Update} {source : Source} (hsource : u.source = some source)
    (hbase : source.base.reference = u.target) :
    (Statement.update u).tableWrites = source.base.table?.elim [] fun name =>
      [(name, u.assignments.filterMap Assignment.column?)] := by
  rw [tableWrites, Update.table?_of_base hsource hbase]

section Filled

variable {f : HoleFiller}

theorem Factor.table?_filled (factor : Factor) : (factor.filled f).table? = factor.table? := by
  cases factor with
  | table _ _ | tableVar _ _ | derived _ _ => rfl

theorem Update.table?_filled (u : Update) : (u.filled f).table? = u.table? := by
  obtain ⟨target, assignments, source, filter⟩ := u
  cases source with
  | none => rfl
  | some source =>
    obtain ⟨base, joins⟩ := source
    have hsame : ((fun factor : Factor => sameName factor.reference target) ∘ Factor.filled f) =
        fun factor => sameName factor.reference target := by
      funext factor
      cases factor with
      | table _ _ | tableVar _ _ | derived _ _ => rfl
    simp only [Update.filled, sourceFilled, table?, map_factor_joinsFilled, ← List.map_cons,
      List.find?_map, hsame]
    cases (base :: joins.map Join.factor).find? fun factor => sameName factor.reference target with
    | none => rfl
    | some factor => exact factor.table?_filled

/-- Filling changes no table that is written, and no list of columns that is spelled out. -/
theorem Statement.tableWrites_filled {st : Statement} (h : st.Spelled) :
    (st.filled f).tableWrites = st.tableWrites := by
  cases st with
  | declare _ _ | delete _ _ | query _ => rfl
  | insert target _ _ =>
    cases target with
    | table _ | tableVar _ => rfl
  | merge m =>
    have hassigned : (assignmentsFilled f m.matchedUpdate).filterMap Assignment.column? =
        m.matchedUpdate.filterMap Assignment.column? := columns_assignmentsFilled h
    simp only [filled, Merge.filled, tableWrites, Factor.table?_filled, Option.elim_map, hassigned]
    rfl
  | update u =>
    have hassigned : (u.filled f).assignments.filterMap Assignment.column? =
        u.assignments.filterMap Assignment.column? := columns_assignmentsFilled h
    simp only [filled, tableWrites, Update.table?_filled, hassigned]

end Filled

end ShapeSql.Sql
