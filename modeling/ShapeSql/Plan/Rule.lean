import ShapeSql.Shape.Directive
import ShapeSql.Sql.Tree

namespace ShapeSql

open Sql

inductive PredicateKind where
  | eq
  | compare (op : CompareOp)
  | like
  | inList
  deriving DecidableEq, Repr

/-- A comparison of a column. The parameter holds the value; a list derives one for each member. -/
structure Predicate where
  column : Expr
  kind : PredicateKind
  negate : Bool
  ignore : Option Ignore
  param : String

/-- A table that a dynamic ordering may name, by its name or its output path. -/
structure OrderTarget where
  aliasName : String
  table : TableId
  path : Path
  deriving DecidableEq, Repr

/-- How the parameters of rows are named: a single row by one name for each column, any number of
rows by a base followed by `_r<row>_c<column>`. -/
inductive RowNames where
  | fields (names : List String)
  | derived (base : String)
  deriving DecidableEq, Repr

inductive RowColumn where
  /-- The position of the element among all elements of its level. -/
  | index
  /-- The position of the element's owner in the level above. -/
  | parentIndex
  /-- A field of the element. -/
  | field (path : Path)
  | null
  deriving DecidableEq, Repr

/-- Rows taken from nested elements. `levels` are the paths down from the argument's elements, each
relative to an element of the level above; `required` refuses an argument without elements. -/
structure RowsSource where
  names : RowNames
  levels : List Path
  columns : List RowColumn
  required : Bool
  deriving DecidableEq, Repr

inductive Action where
  | predicate (predicate : Predicate)
  /-- Keeps the expression unless the value is absent. -/
  | guard (ignore : Ignore) (expr : Expr)
  /-- Orders by the expression, in the direction that the value gives. -/
  | order (expr : Expr)
  /-- Orders by columns of these tables that the value names, of the first if it names no table. -/
  | dynamicOrder (first : OrderTarget) (others : List OrderTarget)
  /-- Assigns a column unless the value is absent. -/
  | assign (column param : String) (ignore : Option Ignore)
  | rows (source : RowsSource)
  /-- Matches rows by the key of the entities that the value holds. -/
  | keyMatch (columns : List (Expr × Path)) (param : String)

structure HoleRule where
  hole : HoleId
  path : Path
  action : Action

/-- What is done to a value on its way into a parameter. -/
inductive Transform where
  | asIs
  /-- Becomes a pattern with the wildcards of the mode. -/
  | like (mode : LikeMode)
  /-- Must not be null. -/
  | required
  deriving DecidableEq, Repr

/-- A parameter and the argument value it holds. -/
structure Param where
  name : String
  path : Path
  transform : Transform
  deriving DecidableEq, Repr

end ShapeSql
