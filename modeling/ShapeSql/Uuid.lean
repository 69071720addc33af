import ShapeSql.Text.Hex
import ShapeSql.Value.Basic

namespace ShapeSql.Uuid

/-- The digits of a hyphenated identifier, if the hyphens stand where they must. -/
def dropHyphens (cs : List Char) : Option (List Char) :=
  let hyphens := (cs.zipIdx.filter fun entry => entry.1 == '-').map Prod.snd
  if cs.length = 36 ∧ hyphens = [8, 13, 18, 23] then some (cs.filter (· != '-')) else none

/-- The digits of any written form. -/
def digitsOf (cs : List Char) : Option (List Char) :=
  match cs.length with
  | 32 => some cs
  | 36 => dropHyphens cs
  | 38 =>
    if cs.head? = some '\x7b' ∧ cs.getLast? = some '\x7d' then dropHyphens (cs.drop 1).dropLast
    else none
  | 45 =>
    if (cs.take 9).map Char.toLower = "urn:uuid:".toList then dropHyphens (cs.drop 9) else none
  | _ => none

def parse (text : String) : Option Uuid := do
  let digits ← digitsOf text.toList
  let value ← Text.hexValue? digits
  return ⟨BitVec.ofNat 128 value⟩

/-- The hyphenated form in small letters. -/
def display (u : Uuid) : String :=
  let ds := Text.hexDigits 32 u.value.toNat
  let part := fun first count => String.ofList ((ds.drop first).take count)
  "-".intercalate [part 0 8, part 8 4, part 12 4, part 16 4, part 20 12]

end ShapeSql.Uuid
