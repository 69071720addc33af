import ShapeSql.Plan.Draft

namespace ShapeSql

open Sql

/-- A column and the field of an element that supplies it, none for one filled in by the batch. -/
structure WrittenColumn where
  column : Column
  source : Option Path
  deriving DecidableEq, Repr, Inhabited

structure WrittenTable where
  index : Nat
  table : Table
  /-- How the table is reached from its parent, none for the target table. -/
  link : Option Link
  /-- From the entity argument down: the path of each level relative to the one above. -/
  levels : List Path
  columns : List WrittenColumn

instance : Inhabited WrittenTable := ⟨⟨0, default, none, [], []⟩⟩

abbrev WrittenTree := Tree WrittenTable

namespace WrittenTable

def column? (t : WrittenTable) (id : ColumnId) : Option WrittenColumn :=
  t.columns.find? fun c => c.column.id == id

/-- The variable that holds the rows to write. -/
def lookup (t : WrittenTable) : String := s!"lookup{t.index}"

/-- The variable that collects the keys of written rows. -/
def output (t : WrittenTable) : String := s!"output{t.index}"

/-- The columns that an insert writes: all but the identity columns. -/
def insertColumns (t : WrittenTable) : List Column :=
  (t.columns.map WrittenColumn.column).filter fun c => !c.autoIncrement

/-- The columns that an update assigns: those that are neither key nor identity. -/
def updateColumns (t : WrittenTable) : List Column :=
  (t.columns.map WrittenColumn.column).filter fun c => !c.primaryKey && !c.autoIncrement

end WrittenTable

/-- Adds a column unless it is there. -/
def addWritten (columns : List WrittenColumn) (column : Column) (source : Option Path) :
    List WrittenColumn :=
  if columns.any fun c => c.column.id == column.id then columns
  else columns ++ [⟨column, source⟩]

/-- Adds the columns of these positions, to be filled in by the batch. -/
def addFilled (s : Schema) (columns : List WrittenColumn) (ids : List ColumnId) :
    List WrittenColumn :=
  ids.foldl (fun columns id =>
    match s.column? id with
    | some column => addWritten columns column none
    | none => columns) columns

/-- The columns of foreign keys that a table holds because of its own link. -/
def Link.ownColumns : Option Link → List ColumnId
  | some (.childHolds pairs) => pairs.map JoinPair.child
  | _ => []

/-- The columns of foreign keys that a table holds because of the link of a child. -/
def Link.columnsAbove : Option Link → List ColumnId
  | some (.parentHolds pairs) => pairs.map JoinPair.parent
  | _ => []

namespace Planner

/-- Numbers for the tables in pre-order. -/
abbrev Numbering := StateT Nat (Except Error)

mutual

/-- The columns with the one that a field of an element supplies, and the tables of the field. The
fields of embedded shapes are reached by paths from `base`; `levels` lead to the elements. -/
def writtenField (p : Planner) (table : Table) (levels : List Path) (base : Path)
    (columns : List WrittenColumn) : FieldTree → Numbering (List WrittenColumn × List WrittenTree)
  | .node field kids => do
    if field.directives.exclude then return (columns, [])
    else if field.directives.via.isSome then throw (.badAttribute (.viaWritten field.path))
    else if field.isScalar then
      let column ← p.resolver.column table field
      return (addWritten columns column (some (base.join field.name)), [])
    else if field.cyclic then return (columns, [])
    else
      match ← p.resolver.shapeTable field with
      -- An embedded shape: its fields supply columns of this table.
      | none => p.writtenFields table levels (base.join field.name) columns kids
      -- A table of its own, numbered before the tables below it.
      | some target =>
        let link ← p.resolver.link table target field.name field.isList field.path
        let index ← modifyGet fun next => (next, next + 1)
        let inner := levels ++ [base.join field.name]
        let (own, below) ← p.writtenFields target inner .root [] kids
        return (columns, [.node ⟨index, target, some link, inner, own⟩ below])

/-- The columns with those that the fields of an element supply, and the tables below. -/
def writtenFields (p : Planner) (table : Table) (levels : List Path) (base : Path)
    (columns : List WrittenColumn) :
    List FieldTree → Numbering (List WrittenColumn × List WrittenTree)
  | [] => return (columns, [])
  | t :: ts => do
    let (columns, first) ← p.writtenField table levels base columns t
    let (columns, others) ← p.writtenFields table levels base columns ts
    return (columns, first ++ others)

end

/-- The columns a table has in the end: what its fields supply, its key, the foreign keys of its own
link, and those of its children's links. -/
def completeColumns (p : Planner) (t : WrittenTable) (children : List WrittenTable) :
    List WrittenColumn :=
  let keyed := addFilled p.schema t.columns t.table.primaryKey
  let linked := addFilled p.schema keyed (Link.ownColumns t.link)
  children.foldl (fun columns child =>
    addFilled p.schema columns (Link.columnsAbove child.link)) linked

mutual

def completed (p : Planner) : WrittenTree → WrittenTree
  | .node t kids =>
    .node { t with columns := p.completeColumns t (kids.map Tree.label) } (p.completedAll kids)

def completedAll (p : Planner) : List WrittenTree → List WrittenTree
  | [] => []
  | t :: ts => p.completed t :: p.completedAll ts

end

/-- The tables that an entity argument is stored in, the target table at the root. -/
def writtenTree (p : Planner) (entity : FieldTree) : Except Error WrittenTree := do
  let ((columns, kids), _) ← (p.writtenFields p.table [] .root [] entity.children).run 1
  return p.completed (.node ⟨0, p.table, none, [], columns⟩ kids)

/-- Whether a table must be written before its parent, which holds a key to it. -/
def writtenFirst (t : WrittenTable) : Bool :=
  match t.link with
  | some (.parentHolds _) => true
  | _ => false

mutual

/-- The tables in an order in which every row follows those whose keys it refers to. -/
def writeOrder (above : List WrittenTable) : WrittenTree → List (Tree.Visit WrittenTable)
  | .node t kids =>
    writeOrderWhere true (t :: above) kids ++ ⟨t, above, kids.map Tree.label⟩
      :: writeOrderWhere false (t :: above) kids

/-- Those of the trees that are written before their parent, or those that are not. -/
def writeOrderWhere (first : Bool) (above : List WrittenTable) :
    List WrittenTree → List (Tree.Visit WrittenTable)
  | [] => []
  | t :: ts =>
    if writtenFirst t.label == first then writeOrder above t ++ writeOrderWhere first above ts
    else writeOrderWhere first above ts

end

/-- The single argument with a shape that a write takes its rows from. -/
def entity (p : Planner) : Except Error FieldTree := do
  match p.arguments.filters with
  | [argument] =>
    let field := argument.label
    if field.type.shapeName?.isNone then
      throw (.badAttribute (.entityNotRecord p.operation field.path))
    match ← p.resolver.shapeTable field with
    | some found =>
      if found.id ≠ p.table.id then
        throw (.badAttribute (.entityElsewhere p.operation field.path found.name p.table.name))
      return argument
    | none => return argument
  | filters => throw (.badAttribute (.entityCount p.operation filters.length))

end Planner
end ShapeSql
