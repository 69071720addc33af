import ShapeSql.Plan.Write

namespace ShapeSql

open Sql

namespace Planner

/-- A hole for the assignment of an argument. -/
def setAssignment (p : Planner) (field : Field) : Planning Assignment := do
  if !field.isScalar then throw (.badAttribute (.setNotScalar field.path))
  let column ← p.resolver.column p.table field
  let param ← Planning.param field.path .asIs
  let hole ← Planning.rule field.path (.assign column.name param field.directives.ignore)
  return .hole hole

/-- An update of the target table itself. -/
def updateTarget (p : Planner) (assignments : List Assignment) (filters : List Expr) : Batch :=
  [.update ⟨p.table.name, assignments, none, Expr.allOf? filters⟩]

/-- Assigns the SET arguments to the rows that pass the filters. -/
def updateBySet (p : Planner) : Planning Batch := do
  let assignments ← p.arguments.set.mapM p.setAssignment
  let filters ← p.arguments.filters.mapM p.rootFilter
  return p.updateTarget assignments filters

/-- The columns that an update by entity uses: those it supplies and the key. -/
def updatedTable (t : WrittenTable) : WrittenTable :=
  { t with columns := t.columns.filter fun c => c.source.isSome || c.column.primaryKey }

/-- Refuses an entity that does not supply the whole key. -/
def checkKeySupplied (t : WrittenTable) (entity : Path) : List Column → Except Error Unit
  | [] => .ok ()
  | column :: rest =>
    if ((t.column? column.id).bind WrittenColumn.source).isSome then checkKeySupplied t entity rest
    else .error (.badAttribute (.entityWithoutKey entity column.name))

/-- What the columns of a single entity come to: assignments, and conditions on the key. -/
def entityColumns (p : Planner) (entity : Path) :
    List WrittenColumn → Planning (List Assignment × List Expr)
  | [] => return ([], [])
  | ⟨column, none⟩ :: rest => do
    let _ := column
    p.entityColumns entity rest
  | ⟨column, some source⟩ :: rest => do
    let param ← Planning.param (entity.concat source) .asIs
    let (assignments, filters) ← p.entityColumns entity rest
    if column.primaryKey then
      return (assignments, .eq (.columnOf p.table.name column.name) (.param param) :: filters)
    else if column.autoIncrement then return (assignments, filters)
    else return (.set column.name (.param param) :: assignments, filters)

/-- Updates the rows with the keys of the entities. -/
def updateByEntity (p : Planner) : Planning Batch := do
  let entity ← match p.entity with
    | .ok entity => pure entity
    | .error _ => throw (.badAttribute (.updateWithoutEntity p.table.name))
  let path := entity.label.path
  let tree ← p.writtenTree entity
  let t := updatedTable tree.label
  if !p.table.hasKey then throw (.badAttribute (.updateWithoutKey p.table.name))
  checkKeySupplied t path p.table.keyColumns
  -- Several entities are joined to the table as rows, a single one is spelled out.
  if entity.label.isList then
    let fill ← fillLookup t path
    match t.updateRows with
    | none => throw (.badAttribute (.nothingToUpdate path))
    | some update => return [t.declareLookup, fill, update]
  else
    let (assignments, filters) ← p.entityColumns path t.columns
    if assignments.isEmpty then throw (.badAttribute (.nothingToUpdate path))
    return p.updateTarget assignments filters

def update (p : Planner) : Planning Batch :=
  if p.arguments.set.isEmpty then p.updateByEntity else p.updateBySet

/-- The sole argument, if it is shaped like the target table. -/
def deletedEntity (p : Planner) : Except Error (Option FieldTree) := do
  match p.arguments.filters with
  | [argument] =>
    let field := argument.label
    if field.type.shapeName?.isNone || field.directives.join.isSome then return none
    let found ← p.resolver.shapeTable field
    return if found.any (fun t => t.id == p.table.id) then some argument else none
  | _ => return none

/-- The field of an entity that supplies a key column, relative to the entity. -/
def keyField? (p : Planner) (entity : FieldTree) (column : Column) : Option Path :=
  let fields := (entity.children.map Tree.label).filter fun f =>
    f.isScalar && !f.directives.exclude
  let supplies := fun (f : Field) =>
    (p.resolver.findColumn p.table f).any fun found => found.id == column.id
  (fields.find? supplies).map fun f => ⟨[f.name]⟩

def keyFields (p : Planner) (entity : FieldTree) : Except Error (List (Expr × Path)) := do
  if !p.table.hasKey then throw (.badAttribute (.deleteWithoutKey p.table.name))
  p.table.keyColumns.mapM fun column =>
    match p.keyField? entity column with
    | some field => .ok (.columnOf p.table.name column.name, field)
    | none => .error (.badAttribute (.entityWithoutKey entity.label.path column.name))

/-- A hole for the match of the entities' keys. -/
def keyMatch (p : Planner) (entity : FieldTree) : Planning Expr := do
  let path := entity.label.path
  let columns ← p.keyFields entity
  let base ← Planning.baseName path.paramName
  let hole ← Planning.rule path (.keyMatch columns base)
  return .hole hole

def delete (p : Planner) : Planning Batch := do
  let filter ← match ← p.deletedEntity with
    | some entity => do
      let condition ← p.keyMatch entity
      pure (some condition)
    | none => do
      let filters ← p.arguments.filters.mapM p.rootFilter
      pure (Expr.allOf? filters)
  return [.delete (.table p.table.name none) filter]

end Planner
end ShapeSql
