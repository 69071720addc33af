import ShapeSql.Text.LetterCase
import ShapeSql.Text.WordChar

namespace ShapeSql.Word

inductive Pattern where
  | char (c : Char)
  | oneOf (cs : List Char)
  | noneOf (cs : List Char)
  | nonAscii
  | nonWord
  | empty
  | nothing
  | seq (first second : Pattern)
  | alt (first second : Pattern)
  | group (inner : Pattern)
  | optional (inner : Pattern)
  | start
  | stop
  | boundary
  deriving Repr, Inhabited

/-- A place in a word: the characters before it, nearest first, those after it, and the texts of the
groups matched on the way. -/
structure Place where
  before : List Char
  after : List Char
  groups : List (List Char)
  deriving Repr

/-- One character for all that count as the same letter; beyond ASCII only those that the rules
mention, and the two whose small form is an ASCII letter. -/
def foldLetter (c : Char) : Char :=
  if c.toNat == 0x17F then 's'
  else if c.toNat == 0x212A then 'k'
  else if c.toNat == 0xC9 then Char.ofNat 0xE9
  else c.toLower

def sameLetter (c d : Char) : Bool := foldLetter c == foldLetter d

namespace Place

/-- Steps over one character that passes the test. -/
def step (p : Place) (test : Char → Bool) : List Place :=
  match p.after with
  | [] => []
  | c :: rest => if test c then [⟨c :: p.before, rest, p.groups⟩] else []

/-- The characters between an earlier place and this one. -/
def since (p earlier : Place) : List Char :=
  (p.before.take (p.before.length - earlier.before.length)).reverse

def isBoundary (p : Place) : Bool :=
  let left := (p.before.head?.map Text.isWordChar).getD false
  let right := (p.after.head?.map Text.isWordChar).getD false
  left != right

end Place

namespace Pattern

/-- Every way to match at a place, the preferred one first. -/
def matchesAt : Pattern → Place → List Place
  | .char c, p => p.step (sameLetter c)
  | .oneOf cs, p => p.step fun d => cs.any (sameLetter d)
  | .noneOf cs, p => p.step fun d => !cs.any (sameLetter d)
  | .nonAscii, p => p.step fun d => (foldLetter d).toNat ≥ 128
  | .nonWord, p => p.step fun d => !Text.isWordChar d
  | .empty, p => [p]
  | .nothing, _ => []
  | .seq a b, p => (a.matchesAt p).flatMap b.matchesAt
  | .alt a b, p => a.matchesAt p ++ b.matchesAt p
  | .group a, p => (a.matchesAt p).map fun q => { q with groups := q.groups ++ [q.since p] }
  | .optional a, p => a.matchesAt p ++ [p]
  | .start, p => if p.before.isEmpty then [p] else []
  | .stop, p => if p.after.isEmpty then [p] else []
  | .boundary, p => if p.isBoundary then [p] else []

/-- The place where the leftmost match begins and the one where it ends. -/
def searchFrom (pattern : Pattern) (before : List Char) : List Char → Option (Place × Place)
  | [] =>
    let here : Place := ⟨before, [], []⟩
    (pattern.matchesAt here).head?.map fun there => (here, there)
  | c :: rest =>
    let here : Place := ⟨before, c :: rest, []⟩
    match (pattern.matchesAt here).head? with
    | some there => some (here, there)
    | none => searchFrom pattern (c :: before) rest

def search? (pattern : Pattern) (word : List Char) : Option (Place × Place) :=
  pattern.searchFrom [] word

instance : Append Pattern := ⟨seq⟩

/-- The characters one after the other. -/
def lit (text : String) : Pattern := text.toList.foldr (fun c rest => seq (char c) rest) empty

/-- Any of the patterns, earlier ones preferred. -/
def either (options : List Pattern) : Pattern := options.foldr alt nothing

/-- Any of the texts. -/
def texts (options : List String) : Pattern := either (options.map lit)

/-- A group that holds one of the texts. -/
def stems (options : List String) : Pattern := group (texts options)

/-- Any character of the text. -/
def any (cs : String) : Pattern := oneOf cs.toList

/-- Any character not in the text. -/
def other (cs : String) : Pattern := noneOf cs.toList

end Pattern
end ShapeSql.Word
