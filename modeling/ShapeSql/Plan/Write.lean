import ShapeSql.Plan.Select
import ShapeSql.Plan.Written

/-!
Writes of nested entities. Every written table gets a variable that holds the rows to write, one for
each element, numbered, and with the number of the element that owns it. The tables are merged in an
order that respects foreign keys; the keys that a merge generates are captured and written back, so
that the tables after it can copy them. A single table without a result needs none of this and is
written by one plain insert.
-/

namespace ShapeSql

open Sql

/-- The column of the element's number. -/
def indexColumn : String := "__index"

/-- The column of the owning element's number. -/
def parentColumn : String := "__parent"

namespace WrittenTable

def declareLookup (t : WrittenTable) : Statement :=
  .declare t.lookup
    (⟨indexColumn, .integer 4, false⟩
      :: ((if t.link.isSome then [⟨parentColumn, .integer 4, true⟩] else [])
        ++ t.columns.map fun c => ⟨c.column.name, c.column.type, true⟩))

def declareOutput (t : WrittenTable) : Statement :=
  .declare t.output
    (⟨indexColumn, .integer 4, false⟩
      :: t.table.keyColumns.map fun c => ⟨c.name, c.type, false⟩)

/-- Captured keys written back into the rows. -/
def writeBack (t : WrittenTable) : Statement :=
  .update {
    target := "l"
    assignments := t.table.keyColumns.map fun c => .set c.name (.columnOf "o" c.name)
    source := some ((Source.of (.tableVar t.lookup (some "l"))).join .inner
      (.tableVar t.output (some "o"))
      (.eq (.columnOf "o" indexColumn) (.columnOf "l" indexColumn)))
    filter := none }

/-- Inserts the rows that match none by key and captures their keys; an insert matches none. -/
def mergeRows (t : WrittenTable) (upsert : Bool) : Statement :=
  let key := t.table.keyColumns
  let columns := t.insertColumns
  .merge {
    target := .table t.table.name (some "target")
    source := .tableVar t.lookup (some "source")
    condition :=
      if upsert && !key.isEmpty then Planner.keyEq "target" "source" key else .contradiction
    matchedUpdate := []
    notMatchedInsert := some ⟨columns.map Column.name,
      columns.map fun c => .columnOf "source" c.name⟩
    output :=
      if key.isEmpty then none
      else some ⟨.columnOf "source" indexColumn :: key.map fun c => .inserted c.name, t.output,
        indexColumn :: key.map Column.name⟩ }

/-- Assigns the non-key columns of the rows that exist, none if there is nothing to assign. -/
def updateRows (t : WrittenTable) : Option Statement :=
  let columns := t.updateColumns
  if columns.isEmpty then none
  else some (.update {
    target := "target"
    assignments := columns.map fun c => .set c.name (.columnOf "source" c.name)
    source := some ((Source.of (.table t.table.name (some "target"))).join .inner
      (.tableVar t.lookup (some "source"))
      (Planner.keyEq "target" "source" t.table.keyColumns))
    filter := none })

/-- Copies columns from the rows of another table, correlated by the named columns. `columns` are
pairs of the column here and the one there. -/
def copyKeys (s : Schema) (t other : WrittenTable) (columns : List (ColumnId × ColumnId))
    (own others : String) : Statement :=
  .update {
    target := "l"
    assignments := columns.map fun (target, source) =>
      .set (s.columnName target) (.columnOf "o" (s.columnName source))
    source := some ((Source.of (.tableVar t.lookup (some "l"))).join .inner
      (.tableVar other.lookup (some "o"))
      (.eq (.columnOf "l" own) (.columnOf "o" others)))
    filter := none }

/-- The rows of a table with those of their owners. -/
def withOwner (t parent : WrittenTable) : Source :=
  (Source.of (.tableVar t.lookup (some "l"))).join .inner (.tableVar parent.lookup (some "p"))
    (.eq (.columnOf "p" indexColumn) (.columnOf "l" parentColumn))

end WrittenTable

namespace Planner

/-- Fills the rows of a table from the entity argument. -/
def fillLookup (t : WrittenTable) (entity : Path) : Planning Statement := do
  let base ← Planning.baseName s!"n{t.index}"
  let nested := t.link.isSome
  -- The target table has no owners, any other one notes for each row the number of its owner.
  let columns := RowColumn.index :: ((if nested then [.parentIndex] else [])
    ++ t.columns.map fun c => match c.source with
      | some source => .field source
      | none => .null)
  let names := indexColumn :: ((if nested then [parentColumn] else [])
    ++ t.columns.map fun c => c.column.name)
  let hole ← Planning.rule entity (.rows ⟨.derived base, t.levels, columns, !nested⟩)
  return .insert (.tableVar t.lookup) names (.hole hole)

/-- The names of a row's parameters: one for each field of a single entity, derived for several. -/
def rowNames (t : WrittenTable) (entity : Path) (single : Bool) (fields : List Path) :
    Planning RowNames :=
  if single then do
    let names ← fields.mapM fun field => Planning.singleName (entity.concat field).paramName
    return .fields names
  else do
    let base ← Planning.baseName s!"n{t.index}"
    return .derived base

/-- One insert of all rows. -/
def plainInsert (t : WrittenTable) (entity : Path) (single : Bool) : Planning Batch := do
  let supplied := t.columns.filter fun c => c.source.isSome && !c.column.autoIncrement
  let fields := supplied.filterMap WrittenColumn.source
  let names ← rowNames t entity single fields
  let hole ← Planning.rule entity (.rows ⟨names, [], fields.map .field, true⟩)
  return [.insert (.table t.table.name) (supplied.map fun c => c.column.name) (.hole hole)]

/-- Pairs the keys of a row and its owner in the junction table; an upsert leaves out the pairs that
are there already. -/
def insertJunction (p : Planner) (t parent : WrittenTable) (junction : Table)
    (toParent toChild : List JoinPair) (upsert : Bool) : Statement :=
  let name := p.schema.columnName
  let base := Query.reading (t.withOwner parent)
  let owners := toParent.foldl (fun query pair =>
    query.project (.columnOf "p" (name pair.parent)) none) base
  let pairs := toChild.foldl (fun query pair =>
    query.project (.columnOf "l" (name pair.child)) none) owners
  let existing := ((probe (.of (.table junction.name (some "j")))).restrict
    (p.pairsEq "p" "j" toParent)).restrict (p.pairsEq "j" "l" toChild)
  .insert (.table junction.name)
    (toParent.map (fun pair => name pair.child) ++ toChild.map fun pair => name pair.parent)
    (.query (if upsert then pairs.restrict (.exists existing true) else pairs))

/-- Copies the keys that a table refers to: those of its owner, if it holds a key to it, and those
of the tables below that it holds a key to. -/
def copiedKeys (p : Planner) (v : Tree.Visit WrittenTable) : Batch :=
  let own := match v.parent?, v.label.link with
    | some parent, some (.childHolds pairs) =>
      [v.label.copyKeys p.schema parent (pairs.map fun pair => (pair.child, pair.parent))
        parentColumn indexColumn]
    | _, _ => []
  own ++ v.children.filterMap fun child => match child.link with
    | some (.parentHolds pairs) =>
      some (v.label.copyKeys p.schema child (pairs.map fun pair => (pair.parent, pair.child))
        indexColumn parentColumn)
    | _ => none

/-- The statements that write the rows of one table. -/
def writeTable (p : Planner) (upsert : Bool) (v : Tree.Visit WrittenTable) : Batch :=
  let t := v.label
  let keyed :=
    if t.table.hasKey then
      t.writeBack :: (if upsert then t.updateRows.toList else [])
    else []
  let paired := match v.parent?, t.link with
    | some parent, some (.junction table toParent toChild) =>
      [p.insertJunction t parent (p.schema.table table) toParent toChild upsert]
    | _, _ => []
  p.copiedKeys v ++ t.mergeRows upsert :: keyed ++ paired

/-- Deletes the rows of written owners that the entities no longer list: child rows, or the pairs of
a junction. -/
def removeStale (p : Planner) (v : Tree.Visit WrittenTable) : Batch :=
  match v.parent?, v.label.link with
  | some parent, some (.childHolds pairs) =>
    if v.label.table.hasKey then
      let owned := (probe (.of (.tableVar parent.lookup (some "p")))).restrict
        (p.pairsEq "p" "t" pairs)
      let listed := (probe (.of (.tableVar v.label.lookup (some "l")))).restrict
        (keyEq "l" "t" v.label.table.keyColumns)
      [.delete (.table v.label.table.name (some "t"))
        (some (.and (.exists owned false) (.exists listed true)))]
    else []
  | some parent, some (.junction table toParent toChild) =>
    let owned := (probe (.of (.tableVar parent.lookup (some "p")))).restrict
      (p.pairsEq "p" "j" toParent)
    let listed := ((probe (v.label.withOwner parent)).restrict
      (p.pairsEq "p" "j" toParent)).restrict (p.pairsEq "j" "l" toChild)
    [.delete (.table (p.schema.table table).name (some "j"))
      (some (.and (.exists owned false) (.exists listed true)))]
  | _, _ => []

/-- Selects the written rows back, in the order of the entities. -/
def returning (p : Planner) (output : FieldTree) : Except Error (Query × Relations) := do
  let relations ← p.resolver.resolve p.table output
  let root := relations.root
  let source := (Source.of (.tableVar "lookup0" (some "__lookup"))).join .inner (p.factor root)
    (keyEq "__lookup" root.aliasName p.table.keyColumns)
  let query := p.projectAll
    (Query.reading (p.joinAll .left (fun _ => true) source relations.visits)) relations
  return ({ query with orderBy := [.term ⟨.columnOf "__lookup" indexColumn, none⟩] }, relations)

/-- Whether the written rows are selected back. -/
def returnsRows (p : Planner) : Bool := p.outputKind = .one ∨ p.outputKind = .many

/-- Inserts, upserts and syncs. -/
def write (p : Planner) : Planning (Batch × Option Relations) := do
  let entity ← p.entity
  let path := entity.label.path
  let tree ← p.writtenTree entity
  -- Nothing refers to the rows and nobody asks for them, so no key has to be captured.
  if p.operation = .insert ∧ tree.size = 1 ∧ !p.returnsRows then
    let batch ← plainInsert tree.label path !entity.label.isList
    return (batch, none)
  if p.returnsRows && !p.table.hasKey then
    throw (.badAttribute (.returningWithoutKey p.table.name))
  let upsert : Bool := p.operation ≠ .insert
  let tables := tree.preorder
  let declared := tables.flatMap fun t =>
    t.declareLookup :: (if t.table.hasKey then [t.declareOutput] else [])
  let filled ← tables.mapM fun t => fillLookup t path
  let written := (writeOrder [] tree).flatMap (p.writeTable upsert)
  -- Rows further down are removed first, the target rows never.
  let removed :=
    if p.operation = .sync then (tree.visits.drop 1).reverse.flatMap p.removeStale else []
  let batch := declared ++ filled ++ written ++ removed
  if p.returnsRows then
    match p.output with
    | none => throw (.badAttribute .returningWithoutShape)
    | some output =>
      let (query, relations) ← p.returning output
      return (batch ++ [.query query], some relations)
  else return (batch, none)

end Planner
end ShapeSql
