import ShapeSql.Name
import ShapeSql.Word.Rules

namespace ShapeSql.Word

/-- Puts a text into the case of `word`: small if the word is small, capital if it is capital, as it
stands if only its first letter is a capital. -/
def restoreCase (word text : List Char) : List Char :=
  if word = text then text
  else if word = Text.lower word then Text.lower text
  else if word = Text.upper word then Text.upper text
  else if (word.head?.map Text.isCapital).getD false then text
  else Text.lower text

/-- Every occurrence of `$` and the digit, replaced. -/
def insertGroup (digit : Char) (text : List Char) : List Char → List Char
  | [] => []
  | [c] => [c]
  | c :: d :: rest =>
    if c = '$' ∧ d = digit then text ++ insertGroup digit text rest
    else c :: insertGroup digit text (d :: rest)

/-- Puts the groups in their places, numbered from `number`. -/
def insertGroups (word : List Char) (number : Nat) (template : List Char) :
    List (List Char) → List Char
  | [] => template
  | text :: rest =>
    insertGroups word (number + 1)
      (insertGroup (Nat.digitChar number) (restoreCase word text) template) rest

/-- The characters without each `$` and the one after it, if there is one. -/
def dropMarks : List Char → List Char
  | [] => []
  | [c] => if c = '$' then [] else [c]
  | c :: d :: rest => if c = '$' then dropMarks rest else c :: dropMarks (d :: rest)

/-- The word with the matched part replaced, if the rule's pattern matches. -/
def Rule.applyTo (rule : Rule) (word : List Char) : Option (List Char) :=
  (rule.pattern.search? word).map fun (first, last) =>
    let template := restoreCase word rule.replacement.toList
    let replaced := insertGroups word 0 template (last.since first :: last.groups)
    dropMarks (first.before.reverse ++ replaced ++ last.after)

/-- The last pair whose member chosen by `side` is the given word. -/
def irregular? (side : String × String → String) (word : String) : Option (String × String) :=
  irregularPairs.reverse.find? fun pair => side pair == word

/-- One direction of inflection: the irregular words that are already in the form wanted, those
that have another, and the rules, of which the last that matches applies. -/
def inflect (wanted given : String × String → String) (rules : List Rule) (name : String) :
    String :=
  let word := name.toList
  let token := String.ofList (Text.lower word)
  if (irregular? wanted token).isSome then
    String.ofList (restoreCase word token.toList)
  else match irregular? given token with
    | some pair => String.ofList (restoreCase word (wanted pair).toList)
    | none =>
      if token.isEmpty || uncountables.contains token then name
      else match (rules ++ uncountableRules).reverse.findSome? (·.applyTo word) with
        | some inflected => String.ofList inflected
        | none => name

def plural (name : String) : String := inflect Prod.snd Prod.fst pluralRules name

def singular (name : String) : String := inflect Prod.fst Prod.snd singularRules name

/-- A way to match names: the spellings to look for, the most wanted ones first, and which names are
plurals. -/
structure Matcher where
  candidates : String → List String
  isPlural : String → Bool

/-- Whether the name is found under the target's name. -/
def Matcher.finds (m : Matcher) (name target : String) : Bool :=
  (m.candidates name).any fun spelling => sameName spelling target

/-- The ways that have a name: in their plural and singular as well, or as written. -/
inductive Inflector where
  | pluralize | exact
  deriving DecidableEq, Repr, Inhabited

namespace Inflector

/-- Adds a spelling unless it differs from one already listed only in case. -/
def addSpelling (spellings : List String) (spelling : String) : List String :=
  if spellings.any (sameName · spelling) then spellings else spellings ++ [spelling]

/-- The spellings to look for, the name itself first. -/
def candidates (i : Inflector) (name : String) : List String :=
  match i with
  | .pluralize => addSpelling (addSpelling [name] (plural name)) (singular name)
  | .exact => [name]

/-- Whether the name is a plural; a word that is its own singular is none. -/
def isPlural (i : Inflector) (name : String) : Bool :=
  match i with
  | .pluralize => sameName (plural name) name && !sameName (singular name) name
  | .exact => false

def matcher (i : Inflector) : Matcher := ⟨i.candidates, i.isPlural⟩

/-- Whether the name is found under the target's name. -/
def finds (i : Inflector) (name target : String) : Bool := i.matcher.finds name target

instance : Coe (Option Inflector) (Option Matcher) := ⟨Option.map matcher⟩

end Inflector

/-- Names as they are written. -/
def Matcher.exact : Matcher := Inflector.exact.matcher

end ShapeSql.Word
