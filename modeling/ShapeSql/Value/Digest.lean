import ShapeSql.Value.Basic

namespace ShapeSql

/-- One word of a digest. -/
inductive DigestWord where
  | kind (kind : Kind)
  | count (n : Nat)
  | number (n : Int)
  | text (s : String)
  deriving DecidableEq, Repr

namespace Value

mutual

/-- The variant, then the contents: floats by their bits, lists and records by their length and
their members in order. -/
def digest : Value → List DigestWord
  | .null => [.kind .null]
  | .bool b => [.kind .bool, .number (if b then 1 else 0)]
  | .i32 n => [.kind .i32, .number n.toInt]
  | .i64 n => [.kind .i64, .number n.toInt]
  | .f64 x => [.kind .f64, .number x.bits.toNat]
  | .text s => [.kind .text, .text s]
  | .bytes bs => .kind .bytes :: .count bs.length :: bs.map fun b => .number b.toNat
  | .uuid u => [.kind .uuid, .number u.value.toNat]
  | .list items => .kind .list :: .count items.length :: digestItems items
  | .record members => .kind .record :: .count members.length :: digestMembers members

def digestItems : List Value → List DigestWord
  | [] => []
  | v :: vs => v.digest ++ digestItems vs

def digestMembers : List (String × Value) → List DigestWord
  | [] => []
  | (name, value) :: rest => .text name :: (value.digest ++ digestMembers rest)

end

end Value
end ShapeSql
