import ShapeSql.Plan.Names
import ShapeSql.Plan.Rule
import ShapeSql.Relation.Resolve
import ShapeSql.Shape.QuerySpec

/-!
Planning hands out hole numbers, parameter names and subquery names as it goes, and collects the
rules and parameters. The arguments of a specification are sorted by their role before it starts.
-/

namespace ShapeSql

open Sql

/-- What has been handed out and collected so far. -/
structure Draft where
  rules : List HoleRule
  params : List Param
  names : Names
  nextHole : Nat
  nextAlias : Nat
  deriving Inhabited

abbrev Planning := StateT Draft (Except Error)

namespace Planning

/-- Records a rule and returns the hole it fills. -/
def rule (path : Path) (action : Action) : Planning HoleId :=
  modifyGet fun d =>
    let hole : HoleId := ⟨d.nextHole⟩
    (hole, { d with nextHole := d.nextHole + 1, rules := d.rules ++ [⟨hole, path, action⟩] })

/-- The parameter for a value; the same value in the same form shares one. -/
def param (path : Path) (transform : Transform) : Planning String :=
  modifyGet fun d =>
    match d.params.find? fun p => p.path == path && p.transform == transform with
    | some p => (p.name, d)
    | none =>
      let (name, names) := d.names.single path.paramName
      (name, { d with names, params := d.params ++ [⟨name, path, transform⟩] })

/-- A name for one parameter of a row. -/
def singleName (base : String) : Planning String :=
  modifyGet fun d =>
    let (name, names) := d.names.single base
    (name, { d with names })

/-- A base for parameters derived when values are bound. -/
def baseName (base : String) : Planning String :=
  modifyGet fun d =>
    let (name, names) := d.names.base base
    (name, { d with names })

/-- A fresh name for the table of a subquery. -/
def freshAlias (stem : String) : Planning String :=
  modifyGet fun d => (stem ++ toString d.nextAlias, { d with nextAlias := d.nextAlias + 1 })

end Planning

/-- The arguments by role, each kind in order of declaration. -/
structure Arguments where
  filters : List FieldTree
  orderBy : List Field
  offset : Option Field
  fetch : Option Field
  set : List Field
  deriving Inhabited

namespace Arguments

def isPaged (a : Arguments) : Bool := a.offset.isSome || a.fetch.isSome

/-- Sorts in one argument. -/
def add (operation : Operation) (a : Arguments) (argument : FieldTree) : Except Error Arguments :=
  let field := argument.label
  let directives := field.directives
  if directives.exclude then .ok a
  else if directives.offset then
    if a.offset.isSome then .error (.badAttribute .severalOffsets)
    else .ok { a with offset := some field }
  else if directives.fetch then
    if a.fetch.isSome then .error (.badAttribute .severalFetches)
    else .ok { a with fetch := some field }
  else if directives.orderBy.isSome then
    if directives.orderBy = some .dynamic
        ∧ a.orderBy.any (fun f => f.directives.orderBy == some .dynamic) then
      .error (.badAttribute .severalDynamicOrders)
    else .ok { a with orderBy := a.orderBy ++ [field] }
  else if directives.set then
    if operation ≠ .update then .error (.badAttribute (.setOutsideUpdate field.path))
    else .ok { a with set := a.set ++ [field] }
  else .ok { a with filters := a.filters ++ [argument] }

/-- Sorts the arguments; ordering and paging are for select only. -/
def classify (operation : Operation) (arguments : List FieldTree) : Except Error Arguments := do
  let a ← arguments.foldlM (add operation) default
  if operation ≠ .select ∧ (a.isPaged ∨ !a.orderBy.isEmpty) then
    throw (.badAttribute (.orderOutsideSelect operation))
  return a

end Arguments

/-- What a specification is planned with: the names it resolves by, its target and arguments. -/
structure Planner where
  resolver : Resolver
  windowAlias : String
  table : Table
  operation : Operation
  output : Option FieldTree
  outputKind : Output
  arguments : Arguments

namespace Planner

def schema (p : Planner) : Schema := p.resolver.schema

/-- The row source of a relation. -/
def factor (p : Planner) (r : Relation) : Factor :=
  .table (p.schema.table r.table).name (some r.aliasName)

/-- The equalities of pairs between two row sources. -/
def pairsEq (p : Planner) (left right : String) (pairs : List JoinPair) : Expr :=
  .allOf (pairs.map fun pair =>
    .eq (.columnOf left (p.schema.columnName pair.parent))
      (.columnOf right (p.schema.columnName pair.child)))

/-- The condition that joins a relation to its parent. -/
def joinCondition (p : Planner) (v : Tree.Visit Relation) : Expr :=
  p.pairsEq (v.parent?.getD v.label).aliasName v.label.aliasName v.label.join

/-- The relations accepted, joined to a FROM clause, parents before children. -/
def joinAll (p : Planner) (kind : JoinKind) (accepts : Tree.Visit Relation → Bool)
    (source : Source) (visits : List (Tree.Visit Relation)) : Source :=
  (visits.filter fun v => v.label.isJoined && accepts v).foldl
    (fun source v => source.join kind (p.factor v.label) (p.joinCondition v)) source

/-- FROM the root and the joined relations accepted. -/
def fromClause (p : Planner) (relations : Relations) (accepts : Tree.Visit Relation → Bool) :
    Source :=
  p.joinAll .left accepts (.of (p.factor relations.root)) relations.visits

/-- The primary key of the target table, read from a row source. -/
def rootKey (p : Planner) (aliasName : String) : List Expr :=
  p.table.keyColumns.map fun column => .columnOf aliasName column.name

/-- Equalities of columns of one name in two row sources. -/
def keyEq (left right : String) (key : List Column) : Expr :=
  .allOf (key.map fun column => .eq (.columnOf left column.name) (.columnOf right column.name))

/-- Projects every column of the relations under its output path. -/
def projectAll (p : Planner) (query : Query) (relations : Relations) : Query :=
  relations.all.foldl (fun query r =>
    r.columns.foldl (fun query c =>
      query.project (.columnOf r.aliasName (p.schema.columnName c.column))
        (some (r.columnAlias c))) query) query

end Planner
end ShapeSql
