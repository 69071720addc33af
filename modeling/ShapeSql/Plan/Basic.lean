import ShapeSql.Plan.Change

namespace ShapeSql

open Sql

structure Plan where
  batch : Batch
  rules : List HoleRule
  params : List Param
  relations : Option Relations

namespace Plan

/-- The first argument with a shape that has a table, as a last resort for the target. -/
def argumentTable (r : Resolver) : List FieldTree → Except Error (Option Table)
  | [] => .ok none
  | argument :: rest =>
    if argument.label.type.shapeName?.isSome then do
      match ← r.shapeTable argument.label with
      | some table => return some table
      | none => argumentTable r rest
    else argumentTable r rest

/-- The table of the output shape. -/
def outputTable (r : Resolver) : Option FieldTree → Except Error (Option Table)
  | none => .ok none
  | some output => r.shapeTable output.label

/-- The target: the table named, else that of the output, else that of an argument. -/
def targetTable (r : Resolver) (spec : QuerySpec) : Except Error Table :=
  match spec.table with
  | some name =>
    match r.findTable name with
    | some table => .ok table
    | none => .error (.badName name (.table name))
  | none => do
    match ← outputTable r spec.output with
    | some table => return table
    | none =>
      match ← argumentTable r spec.arguments.children with
      | some table => return table
      | none => throw (.badAttribute .noTarget)

/-- The statements of a specification and the relations of its result set. -/
def statements (p : Planner) : Planning (Batch × Option Relations) :=
  match p.operation with
  | .select => do
    let (query, relations) ← p.select
    return ([.query query], some relations)
  | .insert | .upsert | .sync => p.write
  | .update => do
    let batch ← p.update
    return (batch, none)
  | .delete => do
    let batch ← p.delete
    return (batch, none)

/-- The plan of a specification. -/
def ofSpec (r : Resolver) (windowAlias : String) (spec : QuerySpec) : Except Error Plan := do
  let table ← targetTable r spec
  if !spec.operation.allows spec.outputKind then
    throw (.badAttribute (.unavailable spec.operation spec.outputKind))
  let arguments ← Arguments.classify spec.operation spec.arguments.children
  let planner : Planner :=
    ⟨r, windowAlias, table, spec.operation, spec.output, spec.outputKind, arguments⟩
  let ((batch, relations), draft) ← (statements planner).run default
  return ⟨batch, draft.rules, draft.params, relations⟩

end Plan
end ShapeSql
