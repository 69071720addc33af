import ShapeSql.Plan.Rule

namespace ShapeSql

open Sql

/-- The direction that a value names; null is ascending. -/
def Sql.Direction.ofValue : Value → Except Error Direction
  | .null => .ok .asc
  | .text s =>
    let word := lowerAscii (Text.trim s)
    if word = "" ∨ word = "asc" ∨ word = "ascending" then .ok .asc
    else if word = "desc" ∨ word = "descending" then .ok .desc
    else .error (.badArgument (.notDirection word))
  | v => .error (.conversion v "Direction")

/-- A character of a pattern that stands for itself: the wildcards become sets of one character. -/
def likeEscape (c : Char) : List Char :=
  if c = '%' ∨ c = '_' ∨ c = '[' then ['[', c, ']'] else [c]

/-- The pattern that finds a text at the place of the mode. -/
def likePattern (mode : LikeMode) (text : String) : String :=
  let escaped := text.toList.flatMap likeEscape
  String.ofList (match mode with
    | .startsWith => escaped ++ ['%']
    | .contains => '%' :: escaped ++ ['%']
    | .endsWith => '%' :: escaped)

/-- The value of a parameter. -/
def Transform.apply (t : Transform) (path : Path) (value : Value) : Except Error Value :=
  match t with
  | .asIs => .ok value
  | .required => if value.isNull then .error (.badArgument (.pagingNull path)) else .ok value
  | .like mode =>
    match value with
    | .text s => .ok (.text (likePattern mode s))
    | other => .ok other

/-- Whether a value counts as absent under an optional directive. -/
def isIgnored (ignore : Option Ignore) (value : Value) : Bool :=
  ignore.any fun i => i.covers value

end ShapeSql
