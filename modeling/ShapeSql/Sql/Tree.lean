import ShapeSql.Schema.Basic

/-!
Statements as trees. What depends on argument values is left open as numbered holes, for an
expression, an ordering, assignments or rows; everything else is fixed when a statement is planned.
-/

namespace ShapeSql.Sql

/-- The number of an open place in a batch. -/
structure HoleId where
  index : Nat
  deriving DecidableEq, Repr, Inhabited

inductive CompareOp where
  | eq | ne | gt | ge | lt | le
  deriving DecidableEq, Repr, Inhabited

namespace CompareOp

def isEq : CompareOp → Bool
  | .eq => true
  | _ => false

/-- The comparison that holds of two values exactly when this one fails. -/
def negate : CompareOp → CompareOp
  | .eq => .ne
  | .ne => .eq
  | .gt => .le
  | .ge => .lt
  | .lt => .ge
  | .le => .gt

end CompareOp

inductive Direction where
  | asc | desc
  deriving DecidableEq, Repr, Inhabited

/-- Where a column comes from: a row source by its alias, or the rows just inserted. -/
inductive Qualifier where
  | source (name : String)
  | inserted
  deriving DecidableEq, Repr

inductive JoinKind where
  | inner | left
  deriving DecidableEq, Repr

mutual

inductive Expr where
  /-- A conjunction. -/
  | all (operands : List Expr)
  /-- A disjunction. -/
  | any (operands : List Expr)
  | compare (left : Expr) (op : CompareOp) (right : Expr)
  | column (qualifier : Option Qualifier) (name : String)
  | countAll
  | exists (query : Query) (negated : Bool)
  | group (inner : Expr)
  | hole (id : HoleId)
  | inList (item : Expr) (items : List Expr) (negated : Bool)
  | isNull (item : Expr) (negated : Bool)
  | like (item pattern : Expr) (negated : Bool)
  | int (value : Int64)
  | text (value : String)
  | null
  | param (name : String)

structure Query where
  distinct : Bool
  projection : List Projected
  source : Option Source
  filter : Option Expr
  groupBy : List Expr
  orderBy : List OrderItem
  offset : Option Expr
  fetch : Option Expr

structure Projected where
  expr : Expr
  aliasName : Option String

/-- A FROM clause. -/
structure Source where
  base : Factor
  joins : List Join

structure Join where
  kind : JoinKind
  factor : Factor
  condition : Expr

/-- A row source: a table, a table variable or a query. -/
inductive Factor where
  | table (name : String) (aliasName : Option String)
  | tableVar (name : String) (aliasName : Option String)
  | derived (query : Query) (aliasName : String)

inductive OrderItem where
  | term (term : OrderTerm)
  | hole (id : HoleId)

structure OrderTerm where
  expr : Expr
  direction : Option Direction

end

inductive Assignment where
  | set (column : String) (value : Expr)
  | hole (id : HoleId)

structure ColumnDef where
  name : String
  type : DbType
  nullable : Bool
  deriving DecidableEq, Repr

inductive InsertTarget where
  | table (name : String)
  | tableVar (name : String)
  deriving DecidableEq, Repr

inductive InsertSource where
  | rows (rows : List (List Expr))
  | hole (id : HoleId)
  | query (query : Query)

/-- The insert branch of a merge. -/
structure MergeInsert where
  columns : List String
  values : List Expr

/-- Values of written rows captured into a table variable. -/
structure OutputInto where
  exprs : List Expr
  into : String
  columns : List String

structure Merge where
  target : Factor
  source : Factor
  condition : Expr
  matchedUpdate : List Assignment
  notMatchedInsert : Option MergeInsert
  output : Option OutputInto

structure Update where
  target : String
  assignments : List Assignment
  source : Option Source
  filter : Option Expr

inductive Statement where
  | declare (name : String) (columns : List ColumnDef)
  | delete (source : Factor) (filter : Option Expr)
  | insert (target : InsertTarget) (columns : List String) (source : InsertSource)
  | merge (merge : Merge)
  | query (query : Query)
  | update (update : Update)

abbrev Batch := List Statement

namespace Statement

/-- The name of the statement's kind. -/
def kindName : Statement → String
  | .declare .. => "Declare"
  | .delete .. => "Delete"
  | .insert .. => "Insert"
  | .merge _ => "Merge"
  | .query _ => "Query"
  | .update _ => "Update"

def isQuery : Statement → Bool
  | .query _ => true
  | _ => false

end Statement

/-- Whether a batch yields a result set of its own. -/
def Batch.hasQuery (batch : Batch) : Bool := batch.any Statement.isQuery

namespace Expr

def eq (left right : Expr) : Expr := .compare left .eq right

def ne (left right : Expr) : Expr := .compare left .ne right

/-- The column `name` of the row source `aliasName`. -/
def columnOf (aliasName name : String) : Expr := .column (some (.source aliasName)) name

/-- The column `name` of the inserted rows. -/
def inserted (name : String) : Expr := .column (some .inserted) name

def tautology : Expr := eq (.int 1) (.int 1)

def contradiction : Expr := eq (.int 1) (.int 0)

def isTautology : Expr → Bool
  | .compare (.int 1) .eq (.int 1) => true
  | _ => false

def isHole : Expr → Bool
  | .hole _ => true
  | _ => false

/-- The operands of a conjunction, any other expression alone. -/
def conjuncts : Expr → List Expr
  | .all operands => operands
  | e => [e]

/-- The operands of a disjunction, any other expression alone. -/
def disjuncts : Expr → List Expr
  | .any operands => operands
  | e => [e]

/-- The conjunction of the operands, those of nested conjunctions taken in; none without any. -/
def allOf? (operands : List Expr) : Option Expr :=
  match operands.flatMap conjuncts with
  | [] => none
  | [e] => some e
  | flat => some (.all flat)

def anyOf? (operands : List Expr) : Option Expr :=
  match operands.flatMap disjuncts with
  | [] => none
  | [e] => some e
  | flat => some (.any flat)

def allOf (operands : List Expr) : Expr := (allOf? operands).getD tautology

def anyOf (operands : List Expr) : Expr := (anyOf? operands).getD contradiction

def and (left right : Expr) : Expr := allOf [left, right]

def or (left right : Expr) : Expr := anyOf [left, right]

end Expr

namespace Query

/-- A query over a FROM clause that projects nothing yet. -/
def reading (source : Source) : Query := ⟨false, [], some source, none, [], [], none, none⟩

def isPaged (q : Query) : Bool := q.offset.isSome || q.fetch.isSome

/-- Adds a projected expression. -/
def project (q : Query) (expr : Expr) (aliasName : Option String) : Query :=
  { q with projection := q.projection ++ [⟨expr, aliasName⟩] }

/-- Restricts the query further. -/
def restrict (q : Query) (condition : Expr) : Query :=
  { q with
    filter := some (match q.filter with
      | some filter => filter.and condition
      | none => condition) }

end Query

namespace Factor

/-- The name a row source goes by. -/
def reference : Factor → String
  | .table name aliasName => aliasName.getD name
  | .tableVar name aliasName => aliasName.getD name
  | .derived _ aliasName => aliasName

end Factor

/-- A FROM clause of one row source. -/
def Source.of (base : Factor) : Source := ⟨base, []⟩

/-- Joins one more row source. -/
def Source.join (s : Source) (kind : JoinKind) (factor : Factor) (on : Expr) : Source :=
  { s with joins := s.joins ++ [⟨kind, factor, on⟩] }

end ShapeSql.Sql
