import ShapeSql.Relation.Link
import ShapeSql.Shape.FieldTree

namespace ShapeSql

/-- The schema and the settings that names are resolved by. -/
structure Resolver where
  schema : Schema
  inflector : Word.Matcher
  policy : JunctionPolicy

/-- A table on the way of a via-relation and the pairs that lead into it. -/
structure Leg where
  table : Table
  pairs : List JoinPair

namespace Resolver

/-- The first table found under a spelling of the name. -/
def findTable (r : Resolver) (name : String) : Option Table :=
  (r.inflector.candidates name).findSome? r.schema.findTable

/-- Whether a name reaches a table by a plural that is not the table's own name. -/
def namesCollection (r : Resolver) (name : String) (table : Table) : Bool :=
  !sameName name table.name && r.inflector.isPlural name

/-- The column a field maps to: the one it names, or the first under a spelling of its name. -/
def findColumn (r : Resolver) (table : Table) (field : Field) : Option Column :=
  match field.directives.column with
  | some name => table.findColumn name
  | none => (r.inflector.candidates field.name).findSome? table.findColumn

def column (r : Resolver) (table : Table) (field : Field) : Except Error Column :=
  match r.findColumn table field with
  | some column => .ok column
  | none => .error (.badName field.path.display (.column field.columnName table.name))

/-- The table of a field with a shape; none if the shape is embedded in its parent's table. -/
def shapeTable (r : Resolver) (field : Field) : Except Error (Option Table) :=
  match field.table with
  | some name =>
    match r.schema.findTable name with
    | some table => .ok (some table)
    | none => .error (.badName field.path.display (.table name))
  | none => .ok (field.type.shapeName?.bind r.findTable)

def link (r : Resolver) (parent child : Table) (field : String) (many : Bool) (path : Path) :
    Except Error Link := do
  match ← Link.infer r.schema parent child field many r.policy with
  | some link => return link
  | none => throw (.badName path.display (.foreignKey parent.name child.name))

/-- The column of a hop, if it names one. -/
def hopColumn (table : Table) (missing : Expected → Error) :
    Option String → Except Error (Option ColumnId)
  | none => .ok none
  | some name =>
    match table.findColumn name with
    | some column => .ok (some column.id)
    | none => .error (missing (.qualifiedColumn table.name name))

/-- The legs from a table over the given hops; only the first is left by a declared column. -/
def legs (r : Resolver) (missing : Expected → Error) (source : Table) (left : Option String) :
    List Hop → Except Error (List Leg)
  | [] => .ok []
  | hop :: rest => do
    match r.schema.findTable hop.table with
    | none => throw (missing (.table hop.table))
    | some target =>
      let leftColumn ← hopColumn source missing left
      let rightColumn ← hopColumn target missing hop.column
      match Link.hop source leftColumn target rightColumn with
      | none => throw (missing (.foreignKey source.name target.name))
      | some pairs =>
        let others ← r.legs missing target none rest
        return ⟨target, pairs⟩ :: others

/-- The legs of a via-relation, which must set out from `start`. -/
def via (r : Resolver) (start : Table) (v : Via) (path : Path) : Except Error (List Leg) := do
  let hops ← v.hops path
  let missing := fun expected => Error.badName path.display (.within v.path expected)
  match hops with
  | [] => return []
  | first :: rest =>
    match (r.schema.findTable first.table).filter fun t => t.id == start.id with
    | none => throw (missing (.hop first.table start.name))
    | some source => r.legs missing source first.column rest

end Resolver
end ShapeSql
