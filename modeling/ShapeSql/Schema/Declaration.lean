import ShapeSql.Error
import ShapeSql.Schema.Basic

namespace ShapeSql

structure ColumnDeclaration where
  name : String
  type : DbType
  nullable : Bool
  primaryKey : Bool
  autoIncrement : Bool
  deriving DecidableEq, Repr, Inhabited

/-- A foreign key by names; without target columns it means the target's primary key. -/
structure KeyDeclaration where
  columns : List String
  target : String
  targetColumns : List String
  deriving DecidableEq, Repr, Inhabited

structure TableDeclaration where
  name : String
  kind : TableKind
  columns : List ColumnDeclaration
  foreignKeys : List KeyDeclaration
  deriving DecidableEq, Repr, Inhabited

namespace Schema

/-- The first name that repeats an earlier one exactly. -/
def repeatedName (seen : List String) : List String → Option String
  | [] => none
  | name :: rest => if seen.contains name then some name else repeatedName (name :: seen) rest

/-- Lays out the columns from position `laid.length` on; no two may agree up to case. -/
def layColumns (table : TableId) (tableName : String) (laid : List Column) :
    List ColumnDeclaration → Except Error (List Column)
  | [] => .ok laid
  | d :: rest =>
    if laid.any fun column => sameName column.name d.name then
      .error (.badSchema (.columnTwice d.name tableName))
    else
      layColumns table tableName
        (laid ++
          [⟨⟨table, laid.length⟩, d.name, d.type, d.nullable, d.primaryKey, d.autoIncrement⟩])
        rest

def layTable (index : Nat) (d : TableDeclaration) : Except Error Table := do
  let columns ← layColumns ⟨index⟩ d.name [] d.columns
  return {
    id := ⟨index⟩
    name := d.name
    kind := d.kind
    columns
    primaryKey := (columns.filter Column.primaryKey).map Column.id
    foreignKeys := [] }

def layTables (index : Nat) : List TableDeclaration → Except Error (List Table)
  | [] => .ok []
  | d :: rest => do
    let table ← layTable index d
    let tables ← layTables (index + 1) rest
    return table :: tables

/-- The columns a key references: those named, or the primary key where none is. -/
def targetColumns (table target : Table) : List String → Except Error (List ColumnId)
  | [] => .ok target.primaryKey
  | names => names.mapM fun name =>
    match target.findColumn name with
    | some column => .ok column.id
    | none => .error (.badSchema (.unknownTargetColumn table.name target.name name))

/-- Pairs the declared columns with the referenced ones. -/
def pairColumns (table : Table) (names : List String) (primaries : List ColumnId) :
    Except Error (List KeyPair) :=
  (names.zip primaries).mapM fun (name, primary) =>
    match table.findColumn name with
    | some column => .ok ⟨column.id, primary⟩
    | none => .error (.badSchema (.unknownKeyColumn name table.name))

/-- Finds what a declared key names; the target is found up to case, the first table winning. -/
def resolveKey (tables : List Table) (table : Table) (key : KeyDeclaration) :
    Except Error ForeignKey := do
  match tables.find? fun t => sameName t.name key.target with
  | none => throw (.badSchema (.unknownTarget table.name key.target))
  | some target =>
    let primaries ← targetColumns table target key.targetColumns
    if primaries.length ≠ key.columns.length ∨ primaries = [] then
      throw (.badSchema (.unpaired table.name key.columns.length primaries.length target.name))
    let pairs ← pairColumns table key.columns primaries
    return ⟨table.id, target.id, pairs⟩

def resolveKeys (tables : List Table) :
    List (Table × TableDeclaration) → Except Error (List Table)
  | [] => .ok []
  | (table, d) :: rest => do
    let keys ← d.foreignKeys.mapM (resolveKey tables table)
    let resolved ← resolveKeys tables rest
    return { table with foreignKeys := keys } :: resolved

/-- The schema of the declarations, in their order. -/
def build (declarations : List TableDeclaration) : Except Error Schema := do
  match repeatedName [] (declarations.map TableDeclaration.name) with
  | some name => throw (.badSchema (.tableTwice name))
  | none =>
    let tables ← layTables 0 declarations
    let resolved ← resolveKeys tables (tables.zip declarations)
    return ⟨resolved⟩

end Schema
end ShapeSql
