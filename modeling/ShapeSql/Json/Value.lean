import ShapeSql.Decimal.Shortest
import ShapeSql.Json.Document
import ShapeSql.Uuid

namespace ShapeSql.Json

/-- How many nested containers, and one more, a document may be read into. -/
def depthLimit : Nat := 128

def toByte? : Document → Option UInt8
  | .number n => do
    let value ← n.toInt?
    if 0 ≤ value ∧ value < 256 then some (UInt8.ofNat value.toNat) else none
  | _ => none

def toText? : Document → Option String
  | .text raw => textOf? raw
  | _ => none

/-- An integer of `bits` bits with sign. -/
def toSigned? (bits : Nat) : Document → Option Int
  | .number n => do
    let value ← n.toInt?
    let bound : Int := Nat.pow 2 (bits - 1)
    if -bound ≤ value ∧ value < bound then some value else none
  | _ => none

/-- The values of the variants that hold no other values. -/
def toScalar? (variant : String) (content : Document) : Option Value :=
  match variant, content with
  | "Null", .null => some .null
  | "Bool", .bool b => some (.bool b)
  | "I32", d => (toSigned? 32 d).map fun n => .i32 (Int32.ofInt n)
  | "I64", d => (toSigned? 64 d).map fun n => .i64 (Int64.ofInt n)
  | "F64", .number n => n.toDouble?.map .f64
  | "String", d => (toText? d).map .text
  | "Uuid", d => ((toText? d).bind Uuid.parse).map .uuid
  | _, _ => none

mutual

/-- Reads a value with room for `depth` more containers. -/
def toValue? : Document → Nat → Option Value
  | .text raw, _ => if textOf? raw = some "Null" then some .null else none
  | .object [(raw, content)], depth => do
    let variant ← textOf? raw
    match variant, content, depth with
    | "List", .array items, depth + 3 => (toValues? items (depth + 1)).map .list
    | "Bytes", .array items, _ + 3 => (items.mapM toByte?).map .bytes
    | "Record", .object members, depth + 3 => (fieldsIn? members none (depth + 1)).map .record
    | "Record", .array [.object members], depth + 4 =>
      (membersOf? members [] (depth + 1)).map .record
    | variant, content, _ + 2 => toScalar? variant content
    | _, _, _ => none
  | _, _ => none

def toValues? : List Document → Nat → Option (List Value)
  | [], _ => some []
  | d :: ds, depth => do
    let value ← toValue? d depth
    let values ← toValues? ds depth
    return value :: values

/-- The member `fields` among the members of a record's form, once; others are passed over. -/
def fieldsIn? : List (List Char × Document) → Option Record → Nat → Option Record
  | [], found, _ => found
  | (raw, content) :: rest, found, depth => do
    let name ← textOf? raw
    if name = "fields" then
      match found, content, depth with
      | none, .object members, depth + 2 => do
        let record ← membersOf? members [] (depth + 1)
        fieldsIn? rest (some record) (depth + 2)
      | _, _, _ => none
    else fieldsIn? rest found depth

/-- The named values, later ones replacing earlier ones. -/
def membersOf? : List (List Char × Document) → Record → Nat → Option Record
  | [], record, _ => some record
  | (raw, content) :: rest, record, depth => do
    let name ← textOf? raw
    let value ← toValue? content depth
    membersOf? rest (Record.insert record name value) depth

end

/-- The value a text holds. -/
def readValue (text : String) : Option Value := do
  let document ← Document.parse text
  toValue? document depthLimit

/-- A character of a string: quotes, backslashes and control characters escaped. -/
def escaped (c : Char) : List Char :=
  if c = '"' then ['\\', '"']
  else if c = '\\' then ['\\', '\\']
  else if c.toNat = 8 then ['\\', 'b']
  else if c.toNat = 9 then ['\\', 't']
  else if c.toNat = 10 then ['\\', 'n']
  else if c.toNat = 12 then ['\\', 'f']
  else if c.toNat = 13 then ['\\', 'r']
  else if c.toNat < 0x20 then ['\\', 'u'] ++ Text.hexDigits 4 c.toNat
  else [c]

def stringText (s : String) : String :=
  "\"" ++ String.ofList (s.toList.flatMap escaped) ++ "\""

def zeros (n : Nat) : String := String.ofList (List.replicate n '0')

/-- An exponent with its sign, positive ones too. -/
def exponentText (n : Int) : String :=
  (if n < 0 then "e-" else "e+") ++ toString n.natAbs

/-- The digits of a positive finite double: positional from `0.00001` up to below `10 ^ 16`, with an
exponent outside; a whole number has one zero after the point. -/
def magnitudeText (d : Double.Decimal) : String :=
  let digits := toString d.digits
  let count := digits.length
  let point : Int := count + d.exponent
  if 0 ≤ d.exponent ∧ point ≤ 16 then digits ++ zeros d.exponent.toNat ++ ".0"
  else if 0 < point ∧ point ≤ 16 then
    String.ofList (digits.toList.take point.toNat) ++ "."
      ++ String.ofList (digits.toList.drop point.toNat)
  else if -5 < point ∧ point ≤ 0 then "0." ++ zeros (-point).toNat ++ digits
  else if count = 1 then digits ++ exponentText (point - 1)
  else
    String.ofList (digits.toList.take 1) ++ "." ++ String.ofList (digits.toList.drop 1)
      ++ exponentText (point - 1)

/-- A double, null where JSON has no number for it. -/
def doubleText (x : Double) : String :=
  if !x.isFinite then "null"
  else
    let sign := if x.isNegative then "-" else ""
    sign ++ (if x.isZero then "0.0" else magnitudeText (Double.shortest ⟨x.magnitude⟩))

/-- The object of one member. -/
def tagged (variant content : String) : String :=
  "\x7b\"" ++ variant ++ "\":" ++ content ++ "\x7d"

mutual

/-- The compact text of a value, record members in order. -/
def valueText : Value → String
  | .null => "\"Null\""
  | .bool b => tagged "Bool" (if b then "true" else "false")
  | .i32 n => tagged "I32" (toString n.toInt)
  | .i64 n => tagged "I64" (toString n.toInt)
  | .f64 x => tagged "F64" (doubleText x)
  | .text s => tagged "String" (stringText s)
  | .bytes bs => tagged "Bytes" ("[" ++ ",".intercalate (bs.map fun b => toString b.toNat) ++ "]")
  | .uuid u => tagged "Uuid" (stringText u.display)
  | .list items => tagged "List" ("[" ++ ",".intercalate (valueTexts items) ++ "]")
  | .record members =>
    tagged "Record" ("\x7b\"fields\":\x7b" ++ ",".intercalate (memberTexts members) ++ "\x7d\x7d")

def valueTexts : List Value → List String
  | [] => []
  | v :: vs => valueText v :: valueTexts vs

def memberTexts : List (String × Value) → List String
  | [] => []
  | (name, value) :: rest => (stringText name ++ ":" ++ valueText value) :: memberTexts rest

end

/-- Whether a value's text is read back as an equal value. -/
def roundTrips (v : Value) : Bool :=
  match readValue (valueText v) with
  | some read => read == v
  | none => false

end ShapeSql.Json
