import ShapeSql.Json.Document
import ShapeSql.Word.Inflector

namespace ShapeSql

/-- What to do when several junction tables link two tables equally well: take the first one, or
refuse. -/
inductive JunctionPolicy where
  | warn | error
  deriving DecidableEq, Repr, Inhabited

structure CompilerOptions where
  junctionPolicy : JunctionPolicy
  /-- The name of the derived table that pages root keys. -/
  keyWindowAlias : String
  inflection : Word.Inflector
  deriving DecidableEq, Repr

instance : Inhabited CompilerOptions := ⟨⟨.warn, "__page", .pluralize⟩⟩

namespace CompilerOptions

open Json

/-- One of several words: a string, or an object whose one member has it as name and null as
value. -/
def toWord? : Document → Option String
  | .text raw => textOf? raw
  | .object [(raw, .null)] => textOf? raw
  | _ => none

def toPolicy? (d : Document) : Option JunctionPolicy :=
  match toWord? d with
  | some "warn" => some .warn
  | some "error" => some .error
  | _ => none

def toInflector? (d : Document) : Option Word.Inflector :=
  match toWord? d with
  | some "pluralize" => some .pluralize
  | some "exact" => some .exact
  | _ => none

def toAlias? : Document → Option String
  | .text raw => textOf? raw
  | _ => none

/-- The settings read so far, each of which may come once. -/
structure Partial where
  policy : Option JunctionPolicy
  windowAlias : Option String
  inflection : Option Word.Inflector
  deriving Inhabited

def Partial.complete (p : Partial) : CompilerOptions :=
  let d : CompilerOptions := default
  ⟨p.policy.getD d.junctionPolicy, p.windowAlias.getD d.keyWindowAlias,
    p.inflection.getD d.inflection⟩

/-- Reads one member; unknown ones are passed over. -/
def Partial.read (p : Partial) (member : List Char × Document) : Option Partial := do
  let name ← textOf? member.1
  match name with
  | "junction_policy" =>
    if p.policy.isSome then none
    else (toPolicy? member.2).map fun policy => { p with policy }
  | "key_window_alias" =>
    if p.windowAlias.isSome then none
    else (toAlias? member.2).map fun windowAlias => { p with windowAlias }
  | "inflection" =>
    if p.inflection.isSome then none
    else (toInflector? member.2).map fun inflection => { p with inflection }
  | _ => some p

def ofItems? : List Document → Option Partial
  | [] => some default
  | [a] => do
    let policy ← toPolicy? a
    return ⟨policy, none, none⟩
  | [a, b] => do
    let policy ← toPolicy? a
    let windowAlias ← toAlias? b
    return ⟨policy, windowAlias, none⟩
  | [a, b, c] => do
    let policy ← toPolicy? a
    let windowAlias ← toAlias? b
    let inflection ← toInflector? c
    return ⟨policy, windowAlias, inflection⟩
  | _ => none

/-- The options a text holds. -/
def parse (text : String) : Option CompilerOptions := do
  let document ← Document.parse text
  let settings : Partial ← match document with
    | .object members => members.foldlM Partial.read default
    | .array items => ofItems? items
    | _ => none
  return settings.complete

end CompilerOptions
end ShapeSql
