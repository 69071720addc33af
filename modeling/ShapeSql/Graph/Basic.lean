import ShapeSql.Graph.Entity
import ShapeSql.Graph.Level
import ShapeSql.Shape.FieldTree

namespace ShapeSql

namespace LevelTree

mutual

/-- Adds one row to the entities of a level and of the levels below. An outer join that matched
nothing shows in cells that are all null; such a row stands for no entity, except at the root. -/
def addRow (columns : List String) (rowNumber : Nat) (row : List Value) (isRoot : Bool) :
    LevelTree → Entities → Entities
  | .node level kids, entities =>
    let values := level.values columns row
    -- What an absent row would own is absent too, so the levels below are not looked at.
    if !isRoot && Record.isAllNull values then entities
    else
      Entities.upsert (.ofRow (level.keyOf values) rowNumber values)
        (Entity.mapNested (addRowBelow columns rowNumber row kids)) entities

def addRowBelow (columns : List String) (rowNumber : Nat) (row : List Value) :
    List LevelTree → Nested → Nested
  | [], nested => nested
  | t :: ts, nested =>
    addRowBelow columns rowNumber row ts
      (Nested.update (addRow columns rowNumber row false t) t.label.relative.display nested)

end

/-- The root entities of a result set. -/
def entities (levels : LevelTree) (rows : Rows) : Entities :=
  rows.rows.zipIdx.foldl (fun found (row, rowNumber) =>
    levels.addRow rows.columns rowNumber row true found) []

/-- The level below this one that a way leads to. -/
def child? (levels : LevelTree) (way : Path) : Option LevelTree :=
  levels.children.find? fun t => t.label.relative == way

end LevelTree

namespace Entity

mutual

/-- What a field shows of an entity. A nested field has a level of its own, or else its columns
stand among those of the entity under the way `base` that leads to it. -/
def shown (levels : LevelTree) (e : Entity) (base : Path) : FieldTree → Value
  | .node field kids =>
    let way := base.join field.name
    if field.cyclic then if field.isList then .list [] else .null
    else if field.isScalar then (Record.get? e.values way.display).getD .null
    else match levels.child? way with
      -- A level of its own starts from an empty way again.
      | some below =>
        let records := (Nested.along e.nested way.display).map fun inner =>
          Value.record (Record.ofMembers (members below inner .root kids))
        if field.isList then .list records else records.headD .null
      | none =>
        let embedded := Record.ofMembers (members levels e way kids)
        if Record.isAllNull embedded then .null else .record embedded

/-- The members that show an entity: one for each field that is not left out. -/
def members (levels : LevelTree) (e : Entity) (base : Path) : List FieldTree → List (String × Value)
  | [] => []
  | t :: ts =>
    if t.label.directives.exclude then members levels e base ts
    else (t.label.name, shown levels e base t) :: members levels e base ts

end

/-- The record that shows an entity. -/
def toValue (levels : LevelTree) (output : FieldTree) (e : Entity) : Value :=
  .record (Record.ofMembers (e.members levels .root output.children))

end Entity

/-- How the rows of a plan become its result. -/
structure Materializer where
  levels : LevelTree
  output : Option FieldTree
  kind : Output

namespace Materializer

def ofRelations (s : Schema) (relations : Relations) (output : Option FieldTree) (kind : Output) :
    Materializer :=
  ⟨.ofRelations s relations, output, kind⟩

/-- The number in the first cell, zero without rows. -/
def count (rows : Rows) : Except Error Value :=
  match rows.rows.head?.bind List.head? with
  | some value => value.toInt64.map .i64
  | none => .ok (.i64 0)

/-- The records of the root entities. -/
def records (levels : LevelTree) (output : FieldTree) (rows : Rows) : Except Error (List Value) :=
  match levels.sources.find? fun name => !rows.columns.contains name with
  | some name => .error (.incident (.missingResultColumn name))
  | none => .ok ((levels.entities rows).map (Entity.toValue levels output))

/-- The result of a result set. -/
def materialize (m : Materializer) (rows : Rows) : Except Error Value :=
  match m.kind, m.output with
  | .count, _ => count rows
  | _, none => .ok .null
  | .one, some output => (records m.levels output rows).map fun shown => shown.headD .null
  | _, some output => (records m.levels output rows).map .list

end Materializer
end ShapeSql
