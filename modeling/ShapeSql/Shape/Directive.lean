import ShapeSql.Error

namespace ShapeSql

inductive FieldType where
  | bool | bytes | dateTime | f64 | i32 | i64 | text | uuid
  | list (element : FieldType)
  | shape (name : String)
  deriving DecidableEq, Repr, Inhabited

namespace FieldType

def isList : FieldType → Bool
  | .list _ => true
  | _ => false

def isShape : FieldType → Bool
  | .shape _ => true
  | _ => false

def isScalar : FieldType → Bool
  | .list element => element.isScalar
  | .shape _ => false
  | _ => true

def isInteger : FieldType → Bool
  | .i32 | .i64 => true
  | _ => false

/-- The type inside all lists. -/
def element : FieldType → FieldType
  | .list element => element.element
  | type => type

/-- The shape of the innermost element, if it is one. -/
def shapeName? (type : FieldType) : Option String :=
  match type.element with
  | .shape name => some name
  | _ => none

end FieldType

/-- When a filter or an assignment is left out. -/
inductive Ignore where
  | ifNull | ifNullOrEmpty
  deriving DecidableEq, Repr

/-- Whether a value counts as absent. -/
def Ignore.covers : Ignore → Value → Bool
  | .ifNull, v => v.isNull
  | .ifNullOrEmpty, v => v.isNullOrEmpty

inductive Inequality where
  | gt | ge | lt | le
  deriving DecidableEq, Repr

/-- Where a pattern match is anchored. -/
inductive LikeMode where
  | startsWith | contains | endsWith
  deriving DecidableEq, Repr

/-- What an order-by argument stands for: a named column in a direction given by the value, the
field's own column, or columns named by the value itself. -/
inductive OrderRole where
  | column (table : Option String) (column : String)
  | direction
  | dynamic
  deriving DecidableEq, Repr

/-- One table on the way of a via-relation, with the column it is entered or left by. -/
structure Hop where
  table : String
  column : Option String
  deriving DecidableEq, Repr

/-- A relation spelled out as `Table.Column -> Table -> ...`, and the column to compare there. -/
structure Via where
  path : String
  column : Option String
  deriving DecidableEq, Repr

namespace Via

/-- Reads one part between arrows: the table before the first dot, the column after it. -/
def hopOf (part : List Char) : Hop :=
  let (table, column) := Text.cutAtChar '.' (Text.trimChars part)
  let name := (column.map Text.trimChars).filter fun cs => !cs.isEmpty
  ⟨String.ofList (Text.trimChars table), name.map String.ofList⟩

/-- The tables on the way, at least two. -/
def hops (v : Via) (field : Path) : Except Error (List Hop) :=
  let hops := (Text.splitAtArrow v.path.toList).map hopOf
  if hops.any fun hop => hop.table.isEmpty then
    .error (.badAttribute (.emptyHop v.path field))
  else if hops.length < 2 then
    .error (.badAttribute (.singleHop v.path field))
  else
    .ok hops

end Via

structure Directives where
  column : Option String
  ignore : Option Ignore
  negate : Bool
  compare : Option Inequality
  like : Option LikeMode
  via : Option Via
  join : Option Path
  offset : Bool
  fetch : Bool
  orderBy : Option OrderRole
  exclude : Bool
  set : Bool
  deriving DecidableEq, Repr

instance : Inhabited Directives :=
  ⟨⟨none, none, false, none, none, none, none, false, false, none, false, false⟩⟩

namespace Directives

def pages (d : Directives) : Bool := d.offset || d.fetch

/-- How many of the roles ordering, paging and assigning a field has. -/
def roleCount (d : Directives) : Nat :=
  [d.orderBy.isSome, d.pages, d.set].count true

/-- Refuses directives that contradict each other or the field's type. -/
def validate (d : Directives) (path : Path) (isInteger : Bool) : Except Error Unit := do
  if d.like.isSome && d.compare.isSome then
    throw (.badAttribute (.likeWithInequality path))
  if d.offset && d.fetch then
    throw (.badAttribute (.offsetAndFetch path))
  if d.pages && !isInteger then
    throw (.badAttribute (.pagingNotInteger path))
  if d.roleCount > 1 then
    throw (.badAttribute (.mixedRoles path))
  if d.via.isSome && d.join.isSome then
    throw (.badAttribute (.viaAndJoin path))
  match d.via with
  | some via => discard (via.hops path)
  | none => pure ()

/-- Whether a field restricts rows. -/
def isFilter (d : Directives) : Bool :=
  !d.exclude && d.orderBy.isNone && !d.pages && !d.set

end Directives

/-- A declared field of a shape, or an argument. -/
structure FieldDef where
  name : String
  type : FieldType
  nullable : Bool
  directives : Directives
  deriving DecidableEq, Repr, Inhabited

/-- A named group of fields, bound to a table if it names one. -/
structure Shape where
  name : String
  table : Option String
  fields : List FieldDef
  deriving DecidableEq, Repr, Inhabited

namespace Shape

def tableName (s : Shape) : String := s.table.getD s.name

/-- The field of exactly this name. -/
def field? (s : Shape) (name : String) : Option FieldDef := s.fields.find? (·.name == name)

end Shape

/-- The registered shapes, in order of first declaration. -/
structure Shapes where
  all : List Shape
  deriving DecidableEq, Repr, Inhabited

namespace Shapes

def empty : Shapes := ⟨[]⟩

def put (shape : Shape) : List Shape → List Shape
  | [] => [shape]
  | other :: rest => if other.name = shape.name then shape :: rest else other :: put shape rest

/-- Declares a shape; a name already declared keeps its place and gets the new fields. -/
def declare (s : Shapes) (shape : Shape) : Shapes := ⟨put shape s.all⟩

def ofList (shapes : List Shape) : Shapes := shapes.foldl declare empty

def get? (s : Shapes) (name : String) : Option Shape := s.all.find? (·.name == name)

/-- The number of declared fields of all shapes. -/
def fieldCount (s : Shapes) : Nat := s.all.foldl (fun count shape => count + shape.fields.length) 0

end Shapes
end ShapeSql
