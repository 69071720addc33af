import ShapeSql.Text.Blank

/-!
Paths name a place in a tree of fields or in an argument record: the steps from the root, written
with dots between them. Steps are compared exactly, so a path can serve as a key.
-/

namespace ShapeSql

structure Path where
  steps : List String
  deriving DecidableEq, Repr, Inhabited

namespace Path

def root : Path := ⟨[]⟩

/-- Reads dotted text: steps are trimmed and blank ones dropped. -/
def parse (text : String) : Path :=
  ⟨((Text.splitAtChar '.' text.toList).map Text.trimChars).filterMap fun step =>
    if step.isEmpty then none else some (String.ofList step)⟩

/-- The steps with dots between them. -/
def display (p : Path) : String := ".".intercalate p.steps

instance : ToString Path := ⟨display⟩

def isRoot (p : Path) : Bool := p.steps.isEmpty

/-- The path one step below. -/
def join (p : Path) (step : String) : Path := ⟨p.steps ++ [step]⟩

def concat (p q : Path) : Path := ⟨p.steps ++ q.steps⟩

/-- The path one step above, none for the root. -/
def parent? (p : Path) : Option Path :=
  if p.steps.isEmpty then none else some ⟨p.steps.dropLast⟩

/-- What is left of `steps` after the steps of `base`. -/
def dropSteps : List String → List String → Option (List String)
  | [], steps => some steps
  | _ :: _, [] => none
  | b :: base, s :: steps => if b = s then dropSteps base steps else none

/-- The way from `base` down to `p`, if `p` lies below it. -/
def below? (p base : Path) : Option Path :=
  (dropSteps base.steps p.steps).map Path.mk

/-- The way from `base` down to `p`, or all of `p` where it does not lie below. -/
def relativeTo (p base : Path) : Path := (p.below? base).getD p

/-- Letters, digits and underscores of ASCII stay in a parameter name. -/
def isParamChar (c : Char) : Bool := c.isAlphanum || c == '_'

/-- The steps joined by underscores, every other character that a parameter name cannot hold
replaced by one too. -/
def paramName (p : Path) : String :=
  "_".intercalate (p.steps.map fun step =>
    String.ofList (step.toList.map fun c => if isParamChar c then c else '_'))

/-- Paths are ordered step by step, steps by code points, a path before those below it. -/
def compareSteps : List String → List String → Ordering
  | [], [] => .eq
  | [], _ :: _ => .lt
  | _ :: _, [] => .gt
  | a :: as, b :: bs => (Ord.compare a b).then (compareSteps as bs)

instance : Ord Path := ⟨fun p q => compareSteps p.steps q.steps⟩

end Path
end ShapeSql
