import ShapeSql.Plan.Filter

namespace ShapeSql

open Sql

namespace Planner

/-- Whether an ordering may name this relation; a paged query orders by to-one navigations only. -/
def canOrderBy (paged : Bool) (v : Tree.Visit Relation) : Bool :=
  v.label.isBound && (!paged || Relations.reachedToOne v)

/-- The relation an ordering names, by its table or its output path. -/
def orderRelation (p : Planner) (relations : Relations) (name : String) :
    Option (Tree.Visit Relation) :=
  relations.visits.find? fun v =>
    v.label.isBound && (sameName (p.schema.table v.label.table).name name
      || sameName v.label.path.display name)

/-- The column that an order-by argument fixes. -/
def orderColumn (p : Planner) (relations : Relations) (paged : Bool) (path : Path)
    (named : Option String) (column : String) : Except Error Expr := do
  let v ← match named with
    | none => pure ⟨relations.root, [], []⟩
    | some name =>
      match p.orderRelation relations name with
      | some v => pure v
      | none => throw (.badName path.display (.table name))
  if paged && !Relations.reachedToOne v then
    throw (.badAttribute (.pagedByCollection path v.label.path))
  let table := p.schema.table v.label.table
  match table.findColumn column with
  | some found => return .columnOf v.label.aliasName found.name
  | none => throw (.badName path.display (.column column table.name))

/-- The rule of an order-by argument, none for an argument that does not order. -/
def orderAction (p : Planner) (relations : Relations) (field : Field) :
    Except Error (Option Action) := do
  let paged := p.arguments.isPaged
  match field.directives.orderBy with
  | none => return none
  | some (.column named column) =>
    let expr ← p.orderColumn relations paged field.path named column
    return some (.order expr)
  | some .direction =>
    let column ← p.resolver.column p.table field
    return some (.order (.columnOf relations.root.aliasName column.name))
  | some .dynamic =>
    let target := fun (r : Relation) => (⟨r.aliasName, r.table, r.path⟩ : OrderTarget)
    let others := (relations.visits.drop 1).filter (canOrderBy paged)
    return some (.dynamicOrder (target relations.root) (others.map fun v => target v.label))

/-- A hole for each order-by argument, in order of declaration. -/
def orderItems (p : Planner) (relations : Relations) : List Field → Planning (List OrderItem)
  | [] => return []
  | field :: rest => do
    match ← p.orderAction relations field with
    | none => p.orderItems relations rest
    | some action =>
      let hole ← Planning.rule field.path action
      let others ← p.orderItems relations rest
      return .hole hole :: others

/-- The root key as last terms of an ordering, so that it leaves no ties. -/
def keyTerms (p : Planner) (aliasName : String) : List OrderItem :=
  (p.rootKey aliasName).map fun key => .term ⟨key, none⟩

/-- The parameter of a paging argument. -/
def pageBound : Option Field → Planning (Option Expr)
  | none => return none
  | some field => do
    let name ← Planning.param field.path .required
    return some (.param name)

/-- Pages a query, the root key breaking ties. -/
def page (p : Planner) (query : Query) (aliasName : String) : Planning Query := do
  let offset ← pageBound p.arguments.offset
  let fetch ← pageBound p.arguments.fetch
  return { query with orderBy := query.orderBy ++ p.keyTerms aliasName, offset, fetch }

/-- Projects the root key under its own names. -/
def projectKey (p : Planner) (query : Query) (aliasName : String) : Query :=
  p.table.keyColumns.foldl (fun query column =>
    query.project (.columnOf aliasName column.name) (some column.name)) query

/-- The number of distinct roots, of joined rows if the root has no key. -/
def countQuery (p : Planner) (relations : Relations) (filters : List Filter) : Query :=
  let base := Query.reading (p.fromClause relations fun _ => true)
  let counted :=
    if p.table.hasKey then p.projectKey { base with distinct := true } relations.root.aliasName
    else base.project (.int 1) (some "__one")
  let inner := filters.foldl (fun query filter => query.restrict filter.expr) counted
  (Query.reading (.of (.derived inner "__count"))).project .countAll none

/-- The condition that the collection leading to a relation has a row that passes, seen from the
nearest relation above that is reached by to-one steps only. -/
def existsAlong (p : Planner) (relations : Relations) (id : Nat) (condition : Expr) : Expr :=
  let lineage := ((relations.visit? id).map Tree.Visit.lineage).getD []
  let above := lineage.filterMap fun r => relations.visit? r.id
  -- The steps that may lead to several rows, the one nearest to the root first.
  match (above.takeWhile fun v => !Relations.reachedToOne v).reverse with
  | [] => condition
  | first :: rest =>
    let source := rest.foldl (fun source v =>
      source.join .inner (p.factor v.label) (p.joinCondition v)) (.of (p.factor first.label))
    .exists (((probe source).restrict (p.joinCondition first)).restrict condition) false

/-- Filters on a collection hold in the window if some row of the collection passes. -/
def windowFilter (p : Planner) (relations : Relations) (query : Query) (filter : Filter) : Query :=
  match filter.target with
  | some id =>
    if relations.isToOne id then query.restrict filter.expr
    else query.restrict (p.existsAlong relations id filter.expr)
  | none => query.restrict filter.expr

/-- The filters that have to be repeated outside of the window. -/
def outerFilters (relations : Relations) (filters : List Filter) : List Filter :=
  filters.filter fun filter => filter.target.any fun id => !relations.isToOne id

/-- A page of root keys joined back to the output. -/
def keyWindow (p : Planner) (relations : Relations) (filters : List Filter)
    (order : List OrderItem) : Planning Query := do
  if !p.table.hasKey then throw (.badAttribute (.pagingWithoutKey p.table.name))
  -- Inside: the keys of the roots that pass, one row for each because only to-one steps are joined.
  let root := relations.root
  let keys := p.projectKey
    (Query.reading (p.fromClause relations Relations.reachedToOne)) root.aliasName
  let inner := filters.foldl (p.windowFilter relations) keys
  let window ← p.page { inner with orderBy := order } root.aliasName
  -- Outside: the page joined back to its roots and to everything that the output reads.
  let source := (Source.of (.derived window p.windowAlias)).join .inner (p.factor root)
    (keyEq p.windowAlias root.aliasName p.table.keyColumns)
  let outer := p.projectAll
    (Query.reading (p.joinAll .left (fun _ => true) source relations.visits)) relations
  let filtered := (outerFilters relations filters).foldl
    (fun query filter => query.restrict filter.expr) outer
  return { filtered with orderBy := order ++ p.keyTerms root.aliasName }

/-- The full output, paged directly. -/
def plainQuery (p : Planner) (relations : Relations) (filters : List Filter)
    (order : List OrderItem) : Planning Query := do
  let base := p.projectAll (Query.reading (p.fromClause relations fun _ => true)) relations
  let filtered := filters.foldl (fun query filter => query.restrict filter.expr) base
  let ordered := { filtered with orderBy := order }
  if p.arguments.isPaged then p.page ordered relations.root.aliasName else return ordered

/-- The relations of the output, or of the root alone. -/
def outputRelations (p : Planner) : Except Error Relations :=
  match p.output with
  | some output => p.resolver.resolve p.table output
  | none => .ok (.ofTable p.table)

def select (p : Planner) : Planning (Query × Relations) := do
  let start ← p.outputRelations
  -- Filters may join relations that the output does not read; orderings see those as well.
  let (filters, joined) ← p.selectFilters start p.arguments.filters
  let relations := joined.anchorKeys p.schema
  let order ← p.orderItems relations p.arguments.orderBy
  let query ←
    if p.outputKind = .count then
      if p.arguments.isPaged then throw (.badAttribute .pagedCount)
      else pure (p.countQuery relations filters)
    else if p.arguments.isPaged && relations.hasJoins then
      p.keyWindow relations filters order
    else p.plainQuery relations filters order
  return (query, relations)

end Planner
end ShapeSql
