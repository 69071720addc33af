import ShapeSql.Decimal.Nearest
import ShapeSql.Text.Hex

namespace ShapeSql.Json

/-- A number as written: sign, digits before and after the point, and the exponent. -/
structure Numeral where
  negative : Bool
  whole : List Nat
  fraction : Option (List Nat)
  exponent : Option (Bool × List Nat)
  deriving Repr, Inhabited

inductive Document where
  | null
  | bool (value : Bool)
  | number (numeral : Numeral)
  /-- A string by the characters between its quotes, escapes as written. -/
  | text (raw : List Char)
  | array (items : List Document)
  | object (members : List (List Char × Document))
  deriving Inhabited

def isSpace (c : Char) : Bool := c == ' ' || c == '\n' || c == '\t' || c == '\r'

def skipSpace (cs : List Char) : List Char := cs.dropWhile isSpace

def isSimpleEscape (c : Char) : Bool := "\"\\/bfnrt".toList.contains c

/-- The characters up to the closing quote, which is dropped. -/
def readRaw : List Char → Option (List Char × List Char)
  | [] => none
  | '"' :: rest => some ([], rest)
  | '\\' :: 'u' :: a :: b :: c :: d :: rest =>
    if [a, b, c, d].all fun x => (Text.hexDigit? x).isSome then
      (readRaw rest).map fun (raw, after) => ('\\' :: 'u' :: a :: b :: c :: d :: raw, after)
    else none
  | '\\' :: c :: rest =>
    if isSimpleEscape c then (readRaw rest).map fun (raw, after) => ('\\' :: c :: raw, after)
    else none
  | c :: rest =>
    if c.toNat < 0x20 || c == '\\' then none
    else (readRaw rest).map fun (raw, after) => (c :: raw, after)

def takeDigits (cs : List Char) : List Nat × List Char :=
  ((cs.takeWhile Char.isDigit).map fun c => c.toNat - '0'.toNat, cs.dropWhile Char.isDigit)

/-- An exponent, if one starts here. -/
def readExponent (cs : List Char) : Option (Option (Bool × List Nat) × List Char) :=
  match cs with
  | c :: rest =>
    if c == 'e' || c == 'E' then
      let (negative, rest) := match rest with
        | '-' :: r => (true, r)
        | '+' :: r => (false, r)
        | r => (false, r)
      match takeDigits rest with
      | ([], _) => none
      | (digits, after) => some (some (negative, digits), after)
    else some (none, cs)
  | [] => some (none, [])

/-- A fraction, if one starts here. -/
def readFraction (cs : List Char) : Option (Option (List Nat) × List Char) :=
  match cs with
  | '.' :: rest =>
    match takeDigits rest with
    | ([], _) => none
    | (digits, after) => some (some digits, after)
  | _ => some (none, cs)

/-- A number; a leading zero stands alone before the point. -/
def readNumeral (negative : Bool) (cs : List Char) : Option (Numeral × List Char) := do
  let (whole, rest) := takeDigits cs
  match whole with
  | [] => none
  | 0 :: _ :: _ => none
  | _ =>
    let (fraction, rest) ← readFraction rest
    let (exponent, rest) ← readExponent rest
    return (⟨negative, whole, fraction, exponent⟩, rest)

def readWord (word : List Char) (cs : List Char) : Option (List Char) :=
  if word.isPrefixOf cs then some (cs.drop word.length) else none

mutual

/-- Reads a document; every step takes a character, so `fuel` beyond the length is never used up. -/
def readDocument : Nat → List Char → Option (Document × List Char)
  | 0, _ => none
  | fuel + 1, cs =>
    match skipSpace cs with
    | 'n' :: rest => (readWord ['u', 'l', 'l'] rest).map fun after => (.null, after)
    | 't' :: rest => (readWord ['r', 'u', 'e'] rest).map fun after => (.bool true, after)
    | 'f' :: rest => (readWord ['a', 'l', 's', 'e'] rest).map fun after => (.bool false, after)
    | '"' :: rest => (readRaw rest).map fun (raw, after) => (.text raw, after)
    | '-' :: rest => (readNumeral true rest).map fun (n, after) => (.number n, after)
    | '[' :: rest =>
      match skipSpace rest with
      | ']' :: after => some (.array [], after)
      | rest => (readItems fuel rest).map fun (items, after) => (.array items, after)
    | '\x7b' :: rest =>
      match skipSpace rest with
      | '\x7d' :: after => some (.object [], after)
      | rest => (readMembers fuel rest).map fun (members, after) => (.object members, after)
    | rest => (readNumeral false rest).map fun (n, after) => (.number n, after)

/-- The items of a nonempty array and its closing bracket. -/
def readItems : Nat → List Char → Option (List Document × List Char)
  | 0, _ => none
  | fuel + 1, cs => do
    let (item, rest) ← readDocument fuel cs
    match skipSpace rest with
    | ',' :: rest =>
      let (items, after) ← readItems fuel rest
      return (item :: items, after)
    | ']' :: after => return ([item], after)
    | _ => none

/-- The members of a nonempty object and its closing brace. -/
def readMembers : Nat → List Char → Option (List (List Char × Document) × List Char)
  | 0, _ => none
  | fuel + 1, cs => do
    match skipSpace cs with
    | '"' :: rest =>
      let (name, rest) ← readRaw rest
      match skipSpace rest with
      | ':' :: rest =>
        let (value, rest) ← readDocument fuel rest
        match skipSpace rest with
        | ',' :: rest =>
          let (members, after) ← readMembers fuel rest
          return ((name, value) :: members, after)
        | '\x7d' :: after => return ([(name, value)], after)
        | _ => none
      | _ => none
    | _ => none

end

/-- The document a text consists of. -/
def Document.parse (text : String) : Option Document :=
  let cs := text.toList
  match readDocument (2 * cs.length + 2) cs with
  | some (document, rest) => if (skipSpace rest).isEmpty then some document else none
  | none => none

/-- Escapes in a row: a pair of surrogates is one character, a lone one is none. -/
def unescape : List Char → Option (List Char)
  | [] => some []
  | '\\' :: 'u' :: a :: b :: c :: d :: rest => do
    let high ← Text.hexValue? [a, b, c, d]
    if 0xDC00 ≤ high && high ≤ 0xDFFF then none
    else if 0xD800 ≤ high && high ≤ 0xDBFF then
      match rest with
      | '\\' :: 'u' :: e :: f :: g :: h :: rest =>
        let low ← Text.hexValue? [e, f, g, h]
        if 0xDC00 ≤ low && low ≤ 0xDFFF then
          let tail ← unescape rest
          return Char.ofNat (0x10000 + (high - 0xD800) * 0x400 + (low - 0xDC00)) :: tail
        else none
      | _ => none
    else
      let tail ← unescape rest
      return Char.ofNat high :: tail
  | '\\' :: c :: rest => do
    let tail ← unescape rest
    let plain := match c with
      | 'b' => Char.ofNat 8
      | 'f' => Char.ofNat 12
      | 'n' => '\n'
      | 'r' => '\r'
      | 't' => '\t'
      | other => other
    return plain :: tail
  | c :: rest => (unescape rest).map (c :: ·)

def textOf? (raw : List Char) : Option String := (unescape raw).map String.ofList

namespace Numeral

def digitsValue (digits : List Nat) : Nat := digits.foldl (fun n d => n * 10 + d) 0

/-- Takes digits as long as the significand stays below `2 ^ 64`; also the number of digits taken
and the number of those left. -/
def takeSignificand (significand : Nat) : List Nat → Nat × Nat × Nat
  | [] => (significand, 0, 0)
  | d :: rest =>
    if significand * 10 + d < Nat.pow 2 64 then
      let (s, taken, left) := takeSignificand (significand * 10 + d) rest
      (s, taken + 1, left)
    else (significand, 0, rest.length + 1)

/-- `significand * 10 ^ exponent` in double arithmetic: one multiplication or division by a power
of ten, after divisions by `10 ^ 308` where the exponent is below its range. -/
def scale (significand : Double) (exponent : Int) : Nat → Option Double
  | 0 => some significand
  | fuel + 1 =>
    if exponent > 308 then if significand.isZero then some significand else none
    else if exponent ≥ 0 then
      let product := significand.mulMagnitude (.ofRatio (Nat.pow 10 exponent.toNat) 1)
      if product.isInfinite then none else some product
    else if exponent ≥ -308 then
      some (significand.divMagnitude (.ofRatio (Nat.pow 10 (-exponent).toNat) 1))
    else if significand.isZero then some significand
    else scale (significand.divMagnitude (.ofRatio (Nat.pow 10 308) 1)) (exponent + 308) fuel

def withSign (negative : Bool) (x : Double) : Double := if negative then x.neg else x

/-- The double a numeral stands for, none beyond the largest. -/
def toDouble? (n : Numeral) : Option Double := do
  let (whole, _, dropped) := takeSignificand 0 n.whole
  let (significand, taken, _) := takeSignificand whole (n.fraction.getD [])
  let start : Int := dropped - taken
  let magnitude ← match n.exponent with
    | none => scale (.ofRatio significand 1) start 5000
    | some (negative, digits) =>
      let e := digitsValue digits
      if e > 2147483647 then
        if significand ≠ 0 ∧ !negative then none else some ⟨0⟩
      else
        let shifted := if negative then start - e else start + e
        let final := max (-2147483648) (min 2147483647 shifted)
        if final < -1000000 then some ⟨0⟩ else scale (.ofRatio significand 1) final 5000
  return withSign n.negative magnitude

/-- The integer a numeral stands for: written without point and exponent, of 64 bits; a negative
zero and what lies below the range are not integers. -/
def toInt? (n : Numeral) : Option Int :=
  if n.fraction.isSome || n.exponent.isSome then none
  else
    let value := digitsValue n.whole
    if n.negative then
      if 0 < value && value ≤ Nat.pow 2 63 then some (-(value : Int)) else none
    else if value < Nat.pow 2 64 then some value else none

end Numeral
end ShapeSql.Json
