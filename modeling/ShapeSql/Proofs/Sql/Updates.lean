import ShapeSql.Proofs.Sql.Conditions
import ShapeSql.Proofs.Sql.Deletes
import ShapeSql.Proofs.Sql.Literal
import ShapeSql.Proofs.Sql.TableWrites
import ShapeSql.Proofs.Value.Record

namespace ShapeSql.Sql

/-- A change of rows: those that have these values in the columns of a key get these values in other
columns, assigned in this order. -/
structure RowChange where
  table : String
  key : List (String × Value)
  assigned : List (String × Value)
  deriving DecidableEq

namespace World

variable (w : World)

/-- All comparisons of the row's cells with these values are true. -/
def finds (key : List (String × Value)) (row : Row) : Bool :=
  key.all fun cell => (w.compare .eq (row.cell cell.1) cell.2).holds

/-- The rows that a change is made to, with what is assigned to them. -/
def changed (c : RowChange) : List (Row × List (String × Value)) :=
  ((w.database.tables c.table).filter (w.finds c.key)).map fun row => (row, c.assigned)

/-- The column that is assigned, and the value for a tuple. -/
def assigns (t : Tuple) : Assignment → Option (String × Value)
  | .set column value => some (column, value.value w [t])
  | .hole _ => none

/-- The tuples that an update goes through: those of its FROM clause, or the rows of the table alone. -/
def updateTuples (u : Update) : List Tuple :=
  match u.source with
  | none => (w.database.tables u.target).map fun row => [(u.target, row)]
  | some source => sourceTuples w [] (some source)

/-- The rows that an update finds, with what it assigns to them. -/
def updated (u : Update) : List (Row × List (String × Value)) :=
  ((w.updateTuples u).filter fun t => (optionalTruth w [t] u.filter).holds).map fun t =>
    ((t.row? u.target).getD [], u.assignments.filterMap (w.assigns t))

/-- The world with these rows in a variable. -/
def holding (name : String) (rows : List Row) : World :=
  { w with database := { w.database with
      tableVars := fun other => if other = name then rows else w.database.tableVars other } }

/-- The world after a variable is declared or filled. A database refuses a variable with two columns of one
name; of other statements nothing is told. -/
def prepared? : Statement → Option World
  | .declare name columns =>
    if Apart (columns.map ColumnDef.name) then some (w.holding name []) else none
  | .insert (.tableVar name) columns (.rows data) =>
    some (w.holding name (w.database.tableVars name ++
      data.map fun cells => columns.zip (cells.map (Expr.value w []))))
  | _ => none

/-- The columns of a key may be compared in any order. -/
theorem changed_perm {c c' : RowChange} (htable : c.table = c'.table) (hkey : c.key.Perm c'.key)
    (hassigned : c.assigned = c'.assigned) : w.changed c = w.changed c' := by
  have hfinds : w.finds c.key = w.finds c'.key := funext fun row => hkey.all_eq
  rw [changed, changed, htable, hfinds, hassigned]

end World

/-- The batch prepares variables and makes the change by an update of the table at its end, which finds the
rows of the change and assigns what it does. -/
inductive Performs (c : RowChange) : World → Batch → Prop where
  | update {w : World} {u : Update} : u.table? = some c.table → w.updated u = w.changed c →
    Performs c w [.update u]
  | prepare {w after : World} {st : Statement} {rest : Batch} : w.prepared? st = some after →
    Performs c after rest → Performs c w (st :: rest)

/-- The batch makes the change with these parameters, whatever the database holds and however it compares
values. -/
def Batch.CarriesOut (batch : Batch) (params : Record) (c : RowChange) : Prop :=
  ∀ w : World, w.params = params → Performs c w batch

/-- Only where a variable is accepted a batch that declares it makes a change. -/
theorem Batch.CarriesOut.apart {name : String} {columns : List ColumnDef} {rest : Batch} {params : Record}
    {c : RowChange} (h : Batch.CarriesOut (.declare name columns :: rest) params c) :
    Apart (columns.map ColumnDef.name) := by
  cases h ⟨.literal, .literal [] [], params⟩ rfl with
  | prepare hprepared _ =>
    rw [World.prepared?] at hprepared
    split at hprepared
    · assumption
    · cases hprepared

section Single

variable {w : World} {env : Env} {f : HoleFiller} {params : Record}

/-- The column is set to a parameter that has the value. -/
def Assignment.SetsTo (params : Record) (cell : String × Value) (a : Assignment) : Prop :=
  ∃ name, a = .set cell.1 (.param name) ∧ params.getExact? name = some cell.2

/-- A column of the row source is compared with a parameter that has the value. -/
def Expr.ComparesTo (params : Record) (aliasName : String) (cell : String × Value) (e : Expr) : Prop :=
  ∃ name, e = .eq (.columnOf aliasName cell.1) (.param name) ∧ params.getExact? name = some cell.2

/-- A filter that may be missing is true where all of its operands are. -/
theorem holds_allOf? (operands : List Expr) :
    (optionalTruth w env (optionalFilled f (Expr.allOf? operands))).holds =
      operands.all fun e => (e.filled f).holds w env := by
  rw [← Expr.holds_allOf, Expr.allOf]
  cases Expr.allOf? operands with
  | none =>
    rw [Option.getD_none, Expr.filled_tautology, Expr.holds_tautology]
    rfl
  | some e => rfl

theorem cell_row (name column : String) (row : Row) :
    Env.cell [[(name, row)]] name column = row.cell column := by
  simp only [Env.cell, Tuple.row?, List.find?_cons, sameName_self, Option.map_some]

theorem Expr.ComparesTo.holds {table : String} {cell : String × Value} {e : Expr}
    (h : e.ComparesTo w.params table cell) (row : Row) :
    (e.filled f).holds w [[(table, row)]] = (w.compare .eq (row.cell cell.1) cell.2).holds := by
  obtain ⟨name, rfl, hvalue⟩ := h
  rw [Expr.eq, Expr.filled, Expr.columnOf, Expr.filled, Expr.filled, Expr.holds_compare,
    value_param hvalue, Expr.value, cell_row]

theorem holds_comparesTo {table : String} {key : List (String × Value)} {filters : List Expr}
    (h : List.Forall₂ (Expr.ComparesTo w.params table) key filters) (row : Row) :
    (filters.all fun e => (e.filled f).holds w [[(table, row)]]) = w.finds key row := by
  induction h with
  | nil => rfl
  | cons hfirst _ ih => rw [List.all_cons, ih, hfirst.holds, World.finds, World.finds, List.all_cons]

theorem assigns_setsTo {assigned : List (String × Value)} {assignments : List Assignment}
    (h : List.Forall₂ (Assignment.SetsTo w.params) assigned assignments) (t : Tuple) :
    (assignmentsFilled f assignments).filterMap (w.assigns t) = assigned := by
  induction h with
  | nil => rfl
  | @cons cell a _ _ hfirst _ ih =>
    obtain ⟨name, rfl, hvalue⟩ := hfirst
    rw [assignmentsFilled, List.filterMap_cons, ih, Expr.filled]
    simp only [World.assigns, value_param hvalue]

/-- An update of the table alone, by parameters. -/
theorem carriesOut_update {c : RowChange} {assignments : List Assignment} {filters : List Expr}
    (hkey : List.Forall₂ (Expr.ComparesTo params c.table) c.key filters)
    (hassigned : List.Forall₂ (Assignment.SetsTo params) c.assigned assignments) :
    Batch.CarriesOut [(Statement.update ⟨c.table, assignments, none, Expr.allOf? filters⟩).filled f]
      params c := by
  rintro w rfl
  refine .update rfl ?_
  have hfind : ∀ row : Row, (optionalTruth w [[(c.table, row)]]
      (optionalFilled f (Expr.allOf? filters))).holds = w.finds c.key row := fun row =>
    (holds_allOf? filters).trans (holds_comparesTo hkey row)
  have hrow : ∀ row : Row, (Tuple.row? [(c.table, row)] c.table).getD [] = row := by
    intro row
    simp only [Tuple.row?, List.find?_cons, sameName_self, Option.map_some, Option.getD_some]
  simp only [World.updated, World.updateTuples, Update.filled, sourceFilled, World.changed,
    List.filter_map, List.map_map, Function.comp_def, hfind, hrow, assigns_setsTo hassigned]

end Single

section Joined

variable {w : World}

/-- A row joined to a table keeps those of its rows that satisfy the condition with it. -/
theorem sourceTuples_sole {variableName left right table : String} {on : Expr} {row : Row}
    (h : w.database.tableVars variableName = [row]) :
    sourceTuples w [] (some ((Source.of (.table table (some left))).join .inner
      (.tableVar variableName (some right)) on)) =
        ((w.database.tables table).map fun found => [(left, found), (right, row)]).filter
          fun t => on.holds w [t] := by
  rw [sourceTuples_inner, List.map_eq_flatMap, List.filter_flatMap]
  simp only [Factor.rows, Factor.reference, Option.getD_some, h, List.map_cons, List.map_nil]

/-- An update of a table by the one row of a variable, which is joined to it by columns of a key. -/
theorem updated_joined {α β : Type} {left right table variableName : String} {row : Row} {f : HoleFiller}
    (h : w.database.tableVars variableName = [row]) (hapart : sameName left right = false)
    (key : List α) (keyName : α → String) (columns : List β) (name : β → String) :
    w.updated (Update.filled f ⟨left, columns.map fun c => .set (name c) (.columnOf right (name c)),
        some ((Source.of (.table table (some left))).join .inner (.tableVar variableName (some right))
          (.allOf (key.map fun c => .eq (.columnOf left (keyName c)) (.columnOf right (keyName c))))),
        none⟩) =
      w.changed ⟨table, key.map fun c => (keyName c, row.cell (keyName c)),
        columns.map fun c => (name c, row.cell (name c))⟩ := by
  have hrow : ∀ found : Row, Tuple.row? [(left, found), (right, row)] left = some found := by
    intro found
    simp only [Tuple.row?, List.find?_cons, sameName_self, Option.map_some]
  have hcell : ∀ (found : Row) (column : String),
      Env.cell [[(left, found), (right, row)]] left column = found.cell column ∧
        Env.cell [[(left, found), (right, row)]] right column = row.cell column := by
    intro found column
    simp only [Env.cell, Tuple.row?, List.find?_cons, sameName_self, hapart, Option.map_some, and_self]
  have hon : ∀ found : Row, ((Expr.allOf (key.map fun c =>
      .eq (.columnOf left (keyName c)) (.columnOf right (keyName c)))).filled f).holds w
        [[(left, found), (right, row)]] =
      w.finds (key.map fun c => (keyName c, row.cell (keyName c))) found := by
    intro found
    rw [Expr.holds_allOf, World.finds, List.all_map, List.all_map]
    refine List.all_congr rfl fun c => ?_
    simp only [Function.comp_apply, Expr.eq, Expr.columnOf, Expr.filled, Expr.holds_compare, Expr.value,
      hcell]
  have hassigns : ∀ t : Tuple, (assignmentsFilled f (columns.map fun c =>
      .set (name c) (.columnOf right (name c)))).filterMap (w.assigns t) =
      columns.map fun c => (name c, Env.cell [t] right (name c)) := by
    intro t
    induction columns with
    | nil => rfl
    | cons c columns ih =>
      rw [List.map_cons, assignmentsFilled, List.filterMap_cons, ih]
      rfl
  have hsource : ∀ on : Expr, sourceFilled f (some ((Source.of (.table table (some left))).join .inner
      (.tableVar variableName (some right)) on)) =
        some ((Source.of (.table table (some left))).join .inner (.tableVar variableName (some right))
          (on.filled f)) := fun on => rfl
  simp only [World.updated, World.updateTuples, Update.filled, hsource, sourceTuples_sole h, hassigns]
  simp only [optionalFilled, optionalTruth, Truth.holds, List.filter_true, List.filter_map, List.map_map,
    Function.comp_def, hon, hrow, hcell, Option.getD_some, World.changed]

end Joined

section Rows

theorem Row.cell_eq {row : Row} (h : row.names.Nodup) {name : String} {value : Value}
    (hcell : (name, value) ∈ row) : row.cell name = value := by
  obtain ⟨found, hfound⟩ : ∃ found, row.getExact? name = some found :=
    Option.isSome_iff_exists.mp ((Record.getExact?_isSome_iff row name).mpr
      (List.mem_map.mpr ⟨_, hcell, rfl⟩))
  have hmem : (name, found) ∈ row := by
    obtain ⟨m, hm, rfl⟩ := Option.map_eq_some_iff.mp hfound
    have hname := List.find?_some hm
    rw [← eq_of_beq hname]
    exact List.mem_of_find?_eq_some hm
  rw [Row.cell, hfound, Option.getD_some]
  exact congrArg Prod.snd (List.inj_on_of_nodup_map h hmem hcell rfl)

end Rows

end ShapeSql.Sql
