import ShapeSql.Bind.Fragment
import ShapeSql.Plan.Basic
import ShapeSql.Sql.Render

namespace ShapeSql

open Sql

inductive BindFailure where
  | refused (error : Error)
  | fault (fault : Fault)
  deriving DecidableEq, Repr

/-- Command text and its parameters. -/
structure Bound where
  sql : String
  params : Params

/-- The holes filled so far, the parameters brought and taken back, and whether an assignment was
kept, if there was any. -/
structure Binding where
  subs : Substitution
  added : Params
  removed : List String
  assigned : Option Bool
  deriving Inhabited

def refuse : Except Error α → Except BindFailure α := Except.mapError .refused

def faulty : Except Fault α → Except BindFailure α := Except.mapError .fault

namespace Binding

/-- Whether an assignment was kept, after one more rule. -/
def noteAssigned (seen : Option Bool) : Action → Fragment → Option Bool
  | .assign .., .assignments [] => some (seen.getD false)
  | .assign .., _ => some true
  | _, _ => seen

/-- Fills one more hole. -/
def step (s : Schema) (args : Value) (b : Binding) (rule : HoleRule) :
    Except BindFailure Binding := do
  let filling ← refuse (rule.fill s (args.entry rule.path))
  let subs ← faulty (b.subs.insert rule.hole filling.fragment)
  return {
    subs
    added := filling.added.foldl (fun params p => Record.insert params p.1 p.2) b.added
    removed := filling.removed ++ b.removed
    assigned := noteAssigned b.assigned rule.action filling.fragment }

/-- Fills every hole, in the order of the rules. -/
def ofRules (s : Schema) (rules : List HoleRule) (args : Value) : Except BindFailure Binding :=
  rules.foldlM (step s args) default

/-- The values of the declared parameters that were not taken back. -/
def declared (params : List Param) (args : Value) (b : Binding) : Except Error Params :=
  (params.filter fun p => !b.removed.contains p.name).foldlM (fun bound p => do
    let value ← p.transform.apply p.path (args.entry p.path)
    return Record.insert bound p.name value) []

/-- The parameters that the rules brought after the declared ones, no name twice. -/
def append (bound : Params) : List (String × Value) → Except Fault Params
  | [] => .ok bound
  | (name, value) :: rest =>
    if (Record.getExact? bound name).isSome then .error (.shadowed name)
    else append (bound ++ [(name, value)]) rest

end Binding

namespace Plan

/-- The substitution and the parameters for argument values. -/
def substitution (plan : Plan) (s : Schema) (args : Value) :
    Except BindFailure (Substitution × Params) := do
  let b ← Binding.ofRules s plan.rules args
  -- Assignments were asked for and every one of them was dropped.
  if b.assigned = some false then throw (.refused (.badArgument .nothingAssigned))
  let declared ← refuse (b.declared plan.params args)
  let params ← faulty (Binding.append declared b.added)
  return (b.subs, params)

/-- Command text and parameters for an argument record, or for none at all. -/
def bind (plan : Plan) (s : Schema) (args : Value) : Except BindFailure Bound := do
  if !args.isNull && !args.isRecord then
    throw (.refused (.badArgument (.notRecord args.kind)))
  let (subs, params) ← plan.substitution s args
  let sql ← faulty (plan.batch.render subs)
  return ⟨sql, params⟩

end Plan
end ShapeSql
