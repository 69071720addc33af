import ShapeSql.Name
import ShapeSql.Text.Blank

namespace ShapeSql

/-- The names handed out and the bases among them, in small letters. -/
structure Names where
  taken : List String
  bases : List String
  deriving Repr, Inhabited

namespace Names

def isDigits (cs : List Char) : Bool := !cs.isEmpty && cs.all Char.isDigit

/-- Digits after the given letter. -/
def isMarked (mark : Char) : List Char → Bool
  | [] => false
  | c :: rest => c == mark && isDigits rest

/-- Whether the segments after a base are those of a derived name. -/
def isDerivedTail : List (List Char) → Bool
  | [i] => isDigits i
  | [i, j] => (isDigits i && isDigits j) || (isMarked 'r' i && isMarked 'c' j)
  | _ => false

/-- What follows `stem` in the text, if the text starts with it. -/
def after? : List Char → List Char → Option (List Char)
  | [], text => some text
  | _ :: _, [] => none
  | s :: stem, c :: text => if s = c then after? stem text else none

/-- Whether `name` has one of the forms derived from `base`. -/
def derives (base name : String) : Bool :=
  match after? (base.toList ++ ['_']) name.toList with
  | some tail => isDerivedTail (Text.splitAtChar '_' tail)
  | none => false

/-- Neither taken nor derived from a base. -/
def isFree (n : Names) (name : String) : Bool :=
  let name := lowerAscii name
  !n.taken.contains name && !n.bases.any fun base => derives base name

/-- Free, and no taken name is derived from it. -/
def isFreeBase (n : Names) (name : String) : Bool :=
  n.isFree name && !n.taken.any fun taken => derives (lowerAscii name) taken

/-- The base, or `p` for an empty one, with the first number that makes it free where it is not.
No numbered name is of a derived form, and every taken name blocks at most one. -/
def unused (n : Names) (base : String) (free : String → Bool) : String :=
  let base := if base.isEmpty then "p" else base
  firstFree free base (fun k => s!"{base}_n{k}") (n.taken.length + 1)

/-- A name for one parameter. -/
def single (n : Names) (base : String) : String × Names :=
  let name := n.unused base n.isFree
  (name, { n with taken := lowerAscii name :: n.taken })

/-- A base for derived names. -/
def base (n : Names) (base : String) : String × Names :=
  let name := n.unused base n.isFreeBase
  (name, ⟨lowerAscii name :: n.taken, lowerAscii name :: n.bases⟩)

end Names
end ShapeSql
