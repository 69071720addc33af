namespace ShapeSql.Sql

inductive Lexeme where
  /-- A keyword, an operator or punctuation, with the blanks around it. -/
  | word (text : String)
  /-- An identifier between double quotes. -/
  | name (text : String)
  /-- A string literal. -/
  | literal (text : String)
  | number (value : Int)
  /-- A parameter or a table variable. -/
  | atName (text : String)
  deriving DecidableEq, Repr

/-- The characters with every `quote` written twice. -/
def doubled (quote : Char) : List Char → List Char
  | [] => []
  | c :: rest => if c = quote then quote :: quote :: doubled quote rest else c :: doubled quote rest

/-- The characters between two quotes. -/
def quoted (quote : Char) (text : String) : List Char :=
  quote :: doubled quote text.toList ++ [quote]

def Lexeme.chars : Lexeme → List Char
  | .word text => text.toList
  | .name text => quoted '"' text
  | .literal text => 'N' :: quoted '\'' text
  | .number value => (toString value).toList
  | .atName text => '@' :: text.toList

/-- The text of a sequence of lexemes. -/
def textOf (lexemes : List Lexeme) : String :=
  String.ofList (lexemes.flatMap Lexeme.chars)

end ShapeSql.Sql
