import ShapeSql.Bind.Value
import ShapeSql.Sql.Fragment

/-!
Filling one hole from the value that its rule reads. Besides the fragment a rule may add parameters
of its own, and may take back the one declared for it when the statement does without.
-/

namespace ShapeSql

open Sql

/-- Parameter values in order; a value added again replaces the one before, in its place. -/
abbrev Params := Record

/-- A fragment, the parameters it brings, and the declared ones it takes back. -/
structure Filling where
  fragment : Fragment
  added : List (String × Value)
  removed : List String

namespace Filling

def expr (e : Expr) : Filling := ⟨.expr e, [], []⟩

/-- A fragment that leaves out the declared parameter. -/
def without (param : String) (fragment : Fragment) : Filling := ⟨fragment, [], [param]⟩

end Filling

/-- The names derived from a base for the elements of a list. -/
def itemName (base : String) (index : Nat) : String := s!"{base}_{index}"

namespace Predicate

/-- The comparison with the members of a list; null members need a branch of their own, and an
empty list decides the condition. -/
def inList (p : Predicate) (items : List Value) : Filling :=
  let present := (items.filter (!·.isNull)).zipIdx.map fun (item, index) =>
    (itemName p.param index, item)
  let members := Expr.inList p.column (present.map fun added => .param added.1) p.negate
  let nulls := Expr.isNull p.column p.negate
  -- An empty list decides by itself, nulls alone leave no list, and both together need a branch each.
  let condition :=
    if items.isEmpty then if p.negate then .tautology else .contradiction
    else if present.isEmpty then nulls
    else if !items.any Value.isNull then members
    else if p.negate then members.and nulls else members.or nulls
  ⟨.expr condition, present, []⟩

/-- The comparison with a value. -/
def fill (p : Predicate) (value : Value) : Filling :=
  if isIgnored p.ignore value then .without p.param (.expr .tautology)
  else match p.kind with
    | .inList => p.inList value.items
    | .eq =>
      if value.isNull then .without p.param (.expr (.isNull p.column p.negate))
      else .expr (.compare p.column (if p.negate then .ne else .eq) (.param p.param))
    | .like =>
      if value.isNull then .without p.param (.expr (.isNull p.column p.negate))
      else .expr (.like p.column (.param p.param) p.negate)
    | .compare op =>
      .expr (.compare p.column (if p.negate then op.negate else op) (.param p.param))

end Predicate

/-- One entry of a dynamic ordering: the column, the table if it names one, and the direction. -/
structure OrderEntry where
  column : String
  table : Option String
  direction : Value

namespace OrderEntry

def columnIn (path : Path) (members : Record) : Except Error String :=
  match Record.get? members "column" with
  | some (.text column) => .ok column
  | some other => .error (.conversion other "column name")
  | none => .error (.badArgument (.orderWithoutColumn path))

def tableIn (members : Record) : Except Error (Option String) :=
  match Record.get? members "table" with
  | none | some .null => .ok none
  | some (.text table) => .ok (if table.isEmpty then none else some table)
  | some other => .error (.conversion other "table name")

/-- Reads an entry: the name of a column, or a record. -/
def ofValue (path : Path) : Value → Except Error OrderEntry
  | .text column => .ok ⟨column, none, .null⟩
  | .record members => do
    let column ← columnIn path members
    let table ← tableIn members
    return ⟨column, table, (Record.get? members "direction").getD .null⟩
  | other => .error (.conversion other "order-by record")

/-- The target an entry means: the first without a table, else the one of this table or path. -/
def target (s : Schema) (path : Path) (first : OrderTarget) (others : List OrderTarget)
    (e : OrderEntry) : Except Error OrderTarget :=
  match e.table with
  | none => .ok first
  | some name =>
    let named := fun (t : OrderTarget) =>
      sameName (s.table t.table).name name || sameName t.path.display name
    match (first :: others).find? named with
    | some t => .ok t
    | none => .error (.badName path.display (.table name))

/-- The term of an entry. -/
def term (s : Schema) (path : Path) (first : OrderTarget) (others : List OrderTarget)
    (e : OrderEntry) : Except Error OrderTerm := do
  let target ← e.target s path first others
  let table := s.table target.table
  match table.findColumn e.column with
  | none => throw (.badName path.display (.column e.column table.name))
  | some column =>
    let direction ← Direction.ofValue e.direction
    return ⟨.columnOf target.aliasName column.name, some direction⟩

end OrderEntry

/-- The terms that a value asks for, null entries passed over. -/
def dynamicOrder (s : Schema) (path : Path) (first : OrderTarget) (others : List OrderTarget)
    (value : Value) : Except Error (List OrderTerm) :=
  value.presentItems.mapM fun entry => do
    let e ← OrderEntry.ofValue path entry
    e.term s path first others

/-- An element of a level and the position of its owner in the level above. -/
structure Element where
  owner : Option Nat
  value : Value

namespace RowsSource

/-- The elements one level down, in order of their owners. -/
def descend (elements : List Element) (step : Path) : List Element :=
  elements.zipIdx.flatMap fun (element, position) =>
    (element.value.entry step).presentItems.map fun item => ⟨some position, item⟩

/-- The elements that rows are made of. -/
def elements (source : RowsSource) (top : List Value) : List Element :=
  source.levels.foldl descend (top.map fun item => ⟨none, item⟩)

/-- The name of the parameter at a place. -/
def cellName (names : RowNames) (row column : Nat) : String :=
  match names with
  | .fields names => names.getD column ""
  | .derived base => s!"{base}_r{row}_c{column}"

/-- A cell, and the parameter it reads. -/
def cell (names : RowNames) (row : Nat) (element : Element) (place : RowColumn × Nat) :
    Expr × List (String × Value) :=
  match place.1 with
  | .index => (.int (Int64.ofNat row), [])
  | .parentIndex =>
    ((match element.owner with
      | some owner => .int (Int64.ofNat owner)
      | none => .null), [])
  | .null => (.null, [])
  | .field path =>
    let name := cellName names row place.2
    (.param name, [(name, element.value.entry path)])

def row (source : RowsSource) (element : Element) (position : Nat) :
    List (Expr × List (String × Value)) :=
  source.columns.zipIdx.map (cell source.names position element)

/-- The rows of a value. -/
def fill (source : RowsSource) (path : Path) (value : Value) : Except Error Filling := do
  let top := value.presentItems
  if source.required && top.isEmpty then throw (.badArgument (.noRows path))
  match source.names with
  | .fields _ => if top.length > 1 then throw (.badArgument (.severalRows path top.length))
  | .derived _ => pure ()
  -- Rows are numbered over all owners, in the order in which their elements are reached.
  let rows := (source.elements top).zipIdx.map fun (element, position) =>
    source.row element position
  return ⟨.rows (rows.map (·.map Prod.fst)), rows.flatMap (·.flatMap Prod.snd), []⟩

end RowsSource

/-- A key column that an entity's row has to match, and the parameter with the value for it. -/
structure KeyCell where
  column : Expr
  param : String
  value : Value

/-- The key cells of one entity; the column number is part of the parameter's name. -/
def keyCells (columns : List (Expr × Path)) (base : String) (entity : Value) : List KeyCell :=
  columns.zipIdx.map fun ((key : Expr × Path), (position : Nat)) =>
    ⟨key.1, itemName base position, entity.entry key.2⟩

def KeyCell.equality (cell : KeyCell) : Expr := .eq cell.column (.param cell.param)

def KeyCell.binding (cell : KeyCell) : String × Value := (cell.param, cell.value)

/-- The condition that a row has the key of one of the entities. A key of one column becomes a list,
a longer one a branch for each entity. -/
def keyMatch (columns : List (Expr × Path)) (base : String) (value : Value) : Filling :=
  let entities := value.presentItems
  if entities.isEmpty then .expr .contradiction
  else match columns with
    | [(column, field)] =>
      let added := entities.zipIdx.map fun (entity, index) =>
        (itemName base index, entity.entry field)
      ⟨.expr (.inList column (added.map fun a => .param a.1) false), added, []⟩
    | columns =>
      let cells := entities.zipIdx.map fun (entity, index) =>
        keyCells columns (itemName base index) entity
      let branches := cells.filterMap fun entity =>
        (Expr.allOf? (entity.map KeyCell.equality)).map .group
      ⟨.expr (.anyOf branches), cells.flatMap fun entity => entity.map KeyCell.binding, []⟩

/-- What a rule makes of its value. -/
def HoleRule.fill (s : Schema) (rule : HoleRule) (value : Value) : Except Error Filling :=
  match rule.action with
  | .predicate p => .ok (p.fill value)
  | .guard ignore expr =>
    .ok (.expr (if ignore.covers value then .tautology else expr))
  | .order expr => do
    let direction ← Direction.ofValue value
    return ⟨.order [⟨expr, some direction⟩], [], []⟩
  | .dynamicOrder first others => do
    let terms ← dynamicOrder s rule.path first others value
    return ⟨.order terms, [], []⟩
  | .assign column param ignore =>
    if isIgnored ignore value then .ok (.without param (.assignments []))
    else .ok ⟨.assignments [.set column (.param param)], [], []⟩
  | .rows source => source.fill rule.path value
  | .keyMatch columns base => .ok (keyMatch columns base value)

end ShapeSql
