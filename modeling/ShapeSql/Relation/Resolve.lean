import ShapeSql.Relation.Resolver

namespace ShapeSql

/-- Resolving that hands out names and numbers, and may be refused. -/
abbrev Resolving := StateT Supply (Except Error)

/-- A place about to be set up: its table, the pairs that join it and its kind. -/
structure Step where
  table : Table
  join : List JoinPair
  kind : RelationKind

namespace Step

/-- The name the row source asks for, none to share its parent's. -/
def desiredAlias (s : Step) (path : Path) : Option String :=
  match s.kind with
  | .embedded => none
  | .junction | .hop => some (path.display ++ "." ++ s.table.name)
  | .root | .navigation _ => some path.display

/-- The steps to the table of a link: the table itself, a junction before it. -/
def ofLink (s : Schema) (target : Table) (link : Link) (list : Bool) : List Step :=
  match link with
  | .parentHolds pairs | .childHolds pairs =>
    [⟨target, pairs, .navigation (list || link.isMany s)⟩]
  | .junction table toParent toChild =>
    [⟨s.table table, toParent, .junction⟩, ⟨target, toChild, .navigation true⟩]

/-- The steps of a via-relation: hops, and the navigation at the end. -/
def ofLegs (s : Schema) (list : Bool) : List Leg → List Step
  | [] => []
  | [last] => [⟨last.table, last.pairs, .navigation (list || !coversKey s last.pairs)⟩]
  | leg :: rest => ⟨leg.table, leg.pairs, .hop⟩ :: ofLegs s list rest

end Step

namespace Resolving

/-- Sets up the places of the steps, each below the one before. -/
def setUp (name : String) (path : Path) (parentAlias : String) :
    List Step → Resolving (List Relation)
  | [] => return []
  | s :: rest => do
    let relation ← modifyGet fun supply =>
      supply.relation s.table.id name path s.join s.kind (s.desiredAlias path) parentAlias
    let others ← setUp name path relation.aliasName rest
    return relation :: others

end Resolving

/-- The places one below the other, the last with the given columns and children. -/
def nested (columns : List ProjectedColumn) (kids : List RelationTree) :
    List Relation → List RelationTree
  | [] => kids
  | [last] => [.node { last with columns } kids]
  | r :: rest => [.node r (nested columns kids rest)]

namespace Resolver

/-- How a field with a shape is reached from its parent's table; the last step is its own place. -/
def stepsTo (r : Resolver) (table : Table) (field : Field) : Except Error (List Step) := do
  match field.directives.via with
  | some v => return Step.ofLegs r.schema field.isList (← r.via table v field.path)
  | none =>
    match ← r.shapeTable field with
    | some target =>
      let link ← r.link table target field.name field.isList field.path
      return Step.ofLink r.schema target link field.isList
    | none => return [⟨table, [], .embedded⟩]

/-- The column of a scalar output field. -/
def scalarColumn (r : Resolver) (table : Table) (field : Field) : Except Error Column :=
  if field.directives.via.isSome then .error (.badAttribute (.viaOnScalarOutput field.path))
  else r.column table field

mutual

/-- The columns with the one that a field projects from a table, and the places of the field. -/
def resolveField (r : Resolver) (table : Table) (aliasName : String)
    (columns : List ProjectedColumn) :
    FieldTree → Resolving (List ProjectedColumn × List RelationTree)
  | .node field kids => do
    if field.directives.exclude then return (columns, [])
    else if field.isScalar then
      let column ← r.scalarColumn table field
      return (Relation.project columns column.id field.name, [])
    else if field.cyclic then return (columns, [])
    else
      -- All steps are places, but only the last one is read by the fields below.
      let steps ← r.stepsTo table field
      let places ← Resolving.setUp field.name field.path aliasName steps
      let target := (steps.getLast?.map Step.table).getD table
      let targetAlias := (places.getLast?.map Relation.aliasName).getD aliasName
      let (own, below) ← r.resolveFields target targetAlias [] kids
      return (columns, nested own below places)

/-- The columns with those that the fields project from a table, and the places below it. -/
def resolveFields (r : Resolver) (table : Table) (aliasName : String)
    (columns : List ProjectedColumn) :
    List FieldTree → Resolving (List ProjectedColumn × List RelationTree)
  | [] => return (columns, [])
  | t :: ts => do
    let (columns, first) ← r.resolveField table aliasName columns t
    let (columns, others) ← r.resolveFields table aliasName columns ts
    return (columns, first ++ others)

end

/-- The relations of an output tree over its target table. -/
def resolve (r : Resolver) (table : Table) (output : FieldTree) : Except Error Relations := do
  let start := Relations.ofTable table
  let ((columns, kids), supply) ←
    (r.resolveFields table start.root.aliasName [] output.children).run start.supply
  let tree : RelationTree := .node { start.root with columns } kids
  return Relations.anchorKeys r.schema ⟨tree, supply⟩

/-- The places along a path of table names. -/
def resolveSteps (r : Resolver) (table : Table) (aliasName : String) (walked : Path) :
    List String → Resolving (List RelationTree)
  | [] => return []
  | step :: rest => do
    let path := walked.join step
    match r.findTable step with
    | none => throw (.badName path.display (.table step))
    | some target =>
      let link ← r.link table target step (r.namesCollection step target) path
      let places ← Resolving.setUp step path aliasName (Step.ofLink r.schema target link false)
      let targetAlias := (places.getLast?.map Relation.aliasName).getD aliasName
      let below ← r.resolveSteps target targetAlias path rest
      return nested [] below places

/-- The relations along a path that the output does not read, each step a table name. -/
def resolvePath (r : Resolver) (table : Table) (path : Path) : Except Error Relations := do
  let start := Relations.ofTable table
  let (kids, supply) ←
    (r.resolveSteps table start.root.aliasName .root path.steps).run start.supply
  let tree : RelationTree := .node start.root kids
  return Relations.anchorKeys r.schema ⟨tree, supply⟩

end Resolver
end ShapeSql
