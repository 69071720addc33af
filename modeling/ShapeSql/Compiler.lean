import ShapeSql.Bind.Basic
import ShapeSql.Graph.Basic
import ShapeSql.Options

namespace ShapeSql

structure Compiler where
  schema : Schema
  options : CompilerOptions
  inflector : Word.Matcher

/-- What a compiler is made from. A way to match names that is given here, which may be any at all,
wins over the one of the options. -/
structure CompilerSetup where
  schema : Option Schema
  options : CompilerOptions
  inflector : Option Word.Matcher
  deriving Inhabited

/-- The compiler of a setup, which must have a schema and a window alias. -/
def CompilerSetup.build (setup : CompilerSetup) : Except Error Compiler :=
  match setup.schema with
  | none => .error (.badSchema .absent)
  | some schema =>
    if setup.options.keyWindowAlias.isEmpty then .error (.badAttribute .emptyWindowAlias)
    else .ok ⟨schema, setup.options, setup.inflector.getD setup.options.inflection.matcher⟩

/-- A statement ready to be bound. -/
structure Compiled where
  schema : Schema
  plan : Plan
  materializer : Option Materializer
  output : Output

namespace Compiler

def resolver (c : Compiler) : Resolver := ⟨c.schema, c.inflector, c.options.junctionPolicy⟩

/-- How the rows of a plan are materialized, if it yields any. -/
def materializer? (c : Compiler) (spec : QuerySpec) (plan : Plan) : Option Materializer :=
  match spec.outputKind with
  | .one | .many | .count =>
    plan.relations.map fun relations =>
      .ofRelations c.schema relations spec.output spec.outputKind
  | _ => none

def compile (c : Compiler) (spec : QuerySpec) : Except Error Compiled := do
  let plan ← Plan.ofSpec c.resolver c.options.keyWindowAlias spec
  return ⟨c.schema, plan, c.materializer? spec plan, spec.outputKind⟩

end Compiler

namespace Compiled

/-- Command text and parameters for an argument record. -/
def bind (c : Compiled) (args : Value) : Except BindFailure Bound := c.plan.bind c.schema args

/-- The result of the rows that the bound statement returned. -/
def materialize (c : Compiled) (rows : Rows) : Except Error Value :=
  match c.materializer with
  | some materializer => materializer.materialize rows
  | none => .ok .null

/-- Whether running the statement yields a result set. -/
def returnsRows (c : Compiled) : Bool := c.materializer.isSome

end Compiled
end ShapeSql
