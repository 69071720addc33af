import ShapeSql.Plan.Draft
import ShapeSql.Relation.Merge

namespace ShapeSql

open Sql

/-- The row source that a filter compares. -/
structure Scope where
  aliasName : String
  table : Table

/-- A condition, and the number of the navigation it compares if it names one. -/
structure Filter where
  expr : Expr
  target : Option Nat

def Inequality.op : Inequality → CompareOp
  | .gt => .gt
  | .ge => .ge
  | .lt => .lt
  | .le => .le

/-- How a field compares: by pattern, inequality, membership or equality, in this order. -/
def Field.predicateKind (field : Field) : PredicateKind :=
  if field.directives.like.isSome then .like
  else match field.directives.compare with
    | some inequality => .compare inequality.op
    | none => if field.isList then .inList else .eq

namespace Planner

/-- The parameter of a comparison: a base for lists, a shared parameter otherwise. -/
def predicateParam (field : Field) : Planning String :=
  match field.predicateKind, field.directives.like with
  | .inList, _ => Planning.baseName field.path.paramName
  | _, some mode => Planning.param field.path (.like mode)
  | _, none => Planning.param field.path .asIs

/-- A hole for the comparison of a column with the field's value. -/
def predicate (column : Expr) (field : Field) (ignore : Option Ignore) : Planning Expr := do
  let param ← predicateParam field
  let hole ← Planning.rule field.path (.predicate
    ⟨column, field.predicateKind, field.directives.negate, ignore, param⟩)
  return .hole hole

/-- The condition unless the field's value is absent and the field may be ignored. -/
def guarded (path : Path) (ignore : Option Ignore) (expr : Expr) : Planning Expr :=
  match ignore with
  | none => return expr
  | some ignore => do
    let hole ← Planning.rule path (.guard ignore expr)
    return .hole hole

/-- The row sources of the legs, each joined to the one before; the first comes with the condition
that ties it to `outer`. -/
def chain (p : Planner) (outer : String) :
    List Leg → Planning (Option (Source × Expr × String × Table))
  | [] => return none
  | first :: rest => do
    let aliasName ← Planning.freshAlias "__exists"
    let start := Source.of (.table first.table.name (some aliasName))
    let tie := p.pairsEq outer aliasName first.pairs
    let (source, last) ← rest.foldlM (fun (source, previous) leg => do
      let aliasName ← Planning.freshAlias "__exists"
      let factor := Factor.table leg.table.name (some aliasName)
      return (source.join .inner factor (p.pairsEq previous.1 aliasName leg.pairs),
        (aliasName, leg.table))) (start, (aliasName, first.table))
    return some (source, tie, last.1, last.2)

/-- `SELECT 1` from the source, to be asked for existence. -/
def probe (source : Source) : Query := (Query.reading source).project (.int 1) none

/-- The column at the end of a via-relation. -/
def viaColumn (p : Planner) (v : Via) (last : Table) (field : Field) : Except Error Column :=
  match v.column with
  | none => p.resolver.column last field
  | some name =>
    match last.findColumn name with
    | some column => .ok column
    | none => .error (.badName field.path.display (.column name last.name))

/-- A related row at the end of a via-relation with a matching column. -/
def viaExists (p : Planner) (scope : Scope) (v : Via) (field : Field) : Planning Expr := do
  let legs ← p.resolver.via scope.table v field.path
  match ← p.chain scope.aliasName legs with
  | none => return .tautology
  | some (source, tie, lastAlias, last) =>
    let column ← p.viaColumn v last field
    let condition ← predicate (.columnOf lastAlias column.name) field none
    return .exists (((probe source).restrict tie).restrict condition) false

/-- The row source of a related table and the condition that ties it to `outer`. -/
def linked (p : Planner) (outer : String) (target : Table) (link : Link) :
    Planning (String × Source × Expr) := do
  let aliasName ← Planning.freshAlias "__exists"
  let factor := Factor.table target.name (some aliasName)
  match link with
  | .parentHolds pairs | .childHolds pairs =>
    return (aliasName, .of factor, p.pairsEq outer aliasName pairs)
  | .junction table toParent toChild =>
    let junction ← Planning.freshAlias "__exists"
    let source := Source.of (.table (p.schema.table table).name (some junction))
    return (aliasName, source.join .inner factor (p.pairsEq junction aliasName toChild),
      p.pairsEq outer junction toParent)

/-- A related row that passes the filters. -/
def relatedExists (source : Source) (tie filters : Expr) : Expr :=
  let query := (probe source).restrict tie
  .exists (if filters.isTautology then query else query.restrict filters) false

/-- The link of a nested filter. -/
def filterLink (p : Planner) (scope : Scope) (target : Table) (field : Field) :
    Except Error Link :=
  let many := field.isList || p.resolver.namesCollection field.name target
  p.resolver.link scope.table target field.name many field.path

/-- The table a nested filter turns to, none if it stays on the same one. -/
def otherTable (p : Planner) (scope : Scope) (field : Field) : Except Error (Option Table) := do
  let found ← p.resolver.shapeTable field
  return found.filter fun t => t.id != scope.table.id

mutual

/-- The condition of one field in a scope. -/
def fieldFilter (p : Planner) (scope : Scope) (ignore : Option Ignore) : FieldTree → Planning Expr
  | .node field kids => do
    match field.directives.via with
    | some v =>
      if !field.isScalar then throw (.badAttribute (.viaOnNestedFilter field.path))
      let condition ← p.viaExists scope v field
      guarded field.path ignore condition
    | none =>
      if field.isScalar then
        let column ← p.resolver.column scope.table field
        predicate (.columnOf scope.aliasName column.name) field ignore
      else if field.cyclic then
        return .tautology
      else if field.isList then
        throw (.badAttribute (.filterCollection field.path))
      else
        match ← p.otherTable scope field with
        | none =>
          let operands ← p.nestedFilters scope kids
          guarded field.path ignore (.allOf operands)
        | some target =>
          let link ← p.filterLink scope target field
          let (aliasName, source, tie) ← p.linked scope.aliasName target link
          let operands ← p.nestedFilters ⟨aliasName, target⟩ kids
          guarded field.path ignore (relatedExists source tie (.allOf operands))

/-- The conditions of the fields of a nested record. -/
def nestedFilters (p : Planner) (scope : Scope) : List FieldTree → Planning (List Expr)
  | [] => return []
  | t :: ts => do
    if t.label.directives.isFilter then
      let first ← p.fieldFilter scope t.label.directives.ignore t
      let rest ← p.nestedFilters scope ts
      return first :: rest
    else p.nestedFilters scope ts

end

/-- The navigation a join-relation filter compares, joined now if the query does not yet. -/
def joinTarget (p : Planner) (relations : Relations) (join path : Path) :
    Except Error (Relation × Relations) :=
  match relations.find? join with
  | some found => .ok (found, relations)
  | none => do
    let extra ← p.resolver.resolvePath p.table join
    let merged ← relations.merged extra
    match merged.find? join with
    | some found => return (found, merged)
    | none => throw (.badName path.display (.navigation join))

/-- The condition of a filter argument on the target table. -/
def plainFilter (p : Planner) (argument : FieldTree) : Planning Expr :=
  let scope : Scope := ⟨p.table.name, p.table⟩
  p.fieldFilter scope argument.label.directives.ignore argument

/-- The condition of a filter argument where nothing can be joined. -/
def rootFilter (p : Planner) (argument : FieldTree) : Planning Expr :=
  match argument.label.directives.join with
  | some _ => throw (.badAttribute (.joinOutsideSelect argument.label.path))
  | none => p.plainFilter argument

/-- The condition of a filter argument, and the relations with what it joins. -/
def selectFilter (p : Planner) (relations : Relations) (argument : FieldTree) :
    Planning (Filter × Relations) :=
  match argument.label.directives.join with
  | none => do
    let expr ← p.plainFilter argument
    return (⟨expr, none⟩, relations)
  | some join => do
    let (target, relations) ← p.joinTarget relations join argument.label.path
    let scope : Scope := ⟨target.aliasName, p.schema.table target.table⟩
    let expr ← p.fieldFilter scope argument.label.directives.ignore argument
    return (⟨expr, some target.id⟩, relations)

def selectFilters (p : Planner) (relations : Relations) :
    List FieldTree → Planning (List Filter × Relations)
  | [] => return ([], relations)
  | argument :: rest => do
    let (filter, relations) ← p.selectFilter relations argument
    let (filters, relations) ← p.selectFilters relations rest
    return (filter :: filters, relations)

end Planner
end ShapeSql
