import ShapeSql.Name
import ShapeSql.Path

namespace ShapeSql

/-- A double by its IEEE 754 bits. -/
structure Double where
  bits : UInt64
  deriving DecidableEq, Repr, Inhabited

namespace Double

/-- The bits without the sign. -/
def magnitude (x : Double) : UInt64 := x.bits &&& 0x7FFFFFFFFFFFFFFF

def isNaN (x : Double) : Bool := x.magnitude > 0x7FF0000000000000

def isZero (x : Double) : Bool := x.magnitude == 0

/-- Equality of numbers: a NaN equals nothing, the two zeros equal each other. -/
def numEq (x y : Double) : Bool :=
  !x.isNaN && !y.isNaN && (x.bits == y.bits || (x.isZero && y.isZero))

end Double

/-- A universally unique identifier, its first written digit the most significant. -/
structure Uuid where
  value : BitVec 128
  deriving DecidableEq, Repr, Inhabited

inductive Value where
  | null
  | bool (value : Bool)
  | i32 (value : Int32)
  | i64 (value : Int64)
  | f64 (value : Double)
  | text (value : String)
  | bytes (value : List UInt8)
  | uuid (value : Uuid)
  | list (items : List Value)
  | record (members : List (String × Value))
  deriving Inhabited

/-- Named values in order, no name twice when built by `Record.insert`. -/
abbrev Record := List (String × Value)

/-- The variant of a value. -/
inductive Kind where
  | bool | bytes | f64 | i32 | i64 | list | null | record | text | uuid
  deriving DecidableEq, Repr

def Kind.name : Kind → String
  | .bool => "Bool"
  | .bytes => "Bytes"
  | .f64 => "F64"
  | .i32 => "I32"
  | .i64 => "I64"
  | .list => "List"
  | .null => "Null"
  | .record => "Record"
  | .text => "String"
  | .uuid => "Uuid"

namespace Record

/-- The value under the exact name, else under the first name equal up to ASCII case. -/
def get? (r : Record) (name : String) : Option Value :=
  (findNamed Prod.fst name r).map Prod.snd

/-- The value under exactly this name. -/
def getExact? (r : Record) (name : String) : Option Value :=
  (r.find? fun member => member.1 == name).map Prod.snd

/-- Sets a member; a name already present keeps its place. -/
def insert : Record → String → Value → Record
  | [], name, value => [(name, value)]
  | (other, old) :: rest, name, value =>
    if other = name then (name, value) :: rest else (other, old) :: insert rest name value

/-- The record of the given members, later ones replacing earlier ones of the same name. -/
def ofMembers (members : List (String × Value)) : Record :=
  members.foldl (fun r member => insert r member.1 member.2) []

def names (r : Record) : List String := r.map Prod.fst

end Record

namespace Value

def kind : Value → Kind
  | .null => .null
  | .bool _ => .bool
  | .i32 _ => .i32
  | .i64 _ => .i64
  | .f64 _ => .f64
  | .text _ => .text
  | .bytes _ => .bytes
  | .uuid _ => .uuid
  | .list _ => .list
  | .record _ => .record

def isNull : Value → Bool
  | .null => true
  | _ => false

def isList : Value → Bool
  | .list _ => true
  | _ => false

def isRecord : Value → Bool
  | .record _ => true
  | _ => false

/-- Null, the empty text or the empty list. -/
def isNullOrEmpty : Value → Bool
  | .null => true
  | .text s => s.isEmpty
  | .list items => items.isEmpty
  | _ => false

def text? : Value → Option String
  | .text s => some s
  | _ => none

def list? : Value → Option (List Value)
  | .list items => some items
  | _ => none

def record? : Value → Option Record
  | .record members => some members
  | _ => none

/-- The elements of a list, none for null, and any other value alone. -/
def items : Value → List Value
  | .list items => items
  | .null => []
  | other => [other]

/-- The elements that are not null. -/
def presentItems (v : Value) : List Value := v.items.filter (!·.isNull)

def entrySteps : Value → List String → Value
  | v, [] => v
  | .record members, step :: steps => ((Record.get? members step).getD .null).entrySteps steps
  | _, _ :: _ => .null

/-- The value at a path below this one, following records and null where there is none. -/
def entry (v : Value) (path : Path) : Value := v.entrySteps path.steps

mutual

/-- Equality of values: floats as numbers, records without regard to order. -/
def same : Value → Value → Bool
  | .null, .null => true
  | .bool a, .bool b => a == b
  | .i32 a, .i32 b => a == b
  | .i64 a, .i64 b => a == b
  | .f64 a, .f64 b => a.numEq b
  | .text a, .text b => a == b
  | .bytes a, .bytes b => a == b
  | .uuid a, .uuid b => a == b
  | .list a, .list b => sameItems a b
  | .record a, .record b => a.length == b.length && sameMembers a b
  | _, _ => false

def sameItems : List Value → List Value → Bool
  | [], [] => true
  | a :: as, b :: bs => a.same b && sameItems as bs
  | _, _ => false

/-- Every member on the left has an equal one of the same name on the right. -/
def sameMembers : List (String × Value) → List (String × Value) → Bool
  | [], _ => true
  | (name, value) :: rest, other =>
    (match Record.getExact? other name with
      | some found => value.same found
      | none => false) && sameMembers rest other

end

instance : BEq Value := ⟨same⟩

end Value

/-- Every member is null. -/
def Record.isAllNull (r : Record) : Bool := r.all fun member => member.2.isNull

/-- Equality of records without regard to order. -/
def Record.same (a b : Record) : Bool := (Value.record a).same (.record b)

end ShapeSql
