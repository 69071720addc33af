import ShapeSql.Shape.FieldTree

namespace ShapeSql

/-- One declaration of what a specification returns. -/
inductive Returns where
  | one (shape : String)
  | many (shape : String)
  | count
  | affected
  deriving DecidableEq, Repr

structure SpecDeclaration where
  operation : Operation
  table : Option String
  arguments : List FieldDef
  returns : List Returns
  deriving Repr

structure QuerySpec where
  operation : Operation
  table : Option String
  arguments : FieldTree
  output : Option FieldTree
  outputKind : Output

namespace SpecDeclaration

/-- The result with rows, the last one declared. -/
def rowResult? (d : SpecDeclaration) : Option (Output × FieldType) :=
  d.returns.foldl (fun found r =>
    match r with
    | .one shape => some (.one, .shape shape)
    | .many shape => some (.many, .list (.shape shape))
    | _ => found) none

def returnsCount (d : SpecDeclaration) : Bool := d.returns.contains .count

def returnsAffected (d : SpecDeclaration) : Bool := d.returns.contains .affected

/-- Refuses repeated argument names and contradictory directives, argument by argument. -/
def checkArguments (seen : List String) : List FieldDef → Except Error Unit
  | [] => .ok ()
  | d :: rest => do
    if seen.any (sameName · d.name) then
      throw (.badAttribute (.argumentTwice d.name))
    d.directives.validate ⟨[d.name]⟩ d.type.isInteger
    checkArguments (d.name :: seen) rest

/-- Refuses contradictory directives of the fields nested in arguments. -/
def checkNested (fields : List Field) : Except Error Unit :=
  fields.forM fun f => f.directives.validate f.path f.type.isInteger

/-- The specification of a declaration over the registered shapes. -/
def build (d : SpecDeclaration) (shapes : Shapes) : Except Error QuerySpec := do
  if [d.rowResult?.isSome, d.returnsCount, d.returnsAffected].count true > 1 then
    throw (.badAttribute .severalResults)
  checkArguments [] d.arguments
  let arguments ← FieldTree.ofFields d.arguments shapes
  checkNested (arguments.children.flatMap fun argument => Tree.preorderAll argument.children)
  let (output, kind) ← match d.rowResult? with
    | some (kind, type) => do
      let tree ← FieldTree.ofType "" type shapes
      pure (some tree, kind)
    | none =>
      pure (none, if d.returnsCount then .count else if d.returnsAffected then .affected
        else .nothing)
  if kind == .count && d.operation != .select then
    throw (.badAttribute .countOutsideSelect)
  return ⟨d.operation, d.table, arguments, output, kind⟩

end SpecDeclaration

/-- The shape of the result, if it has one. -/
def QuerySpec.outputShape? (s : QuerySpec) : Option String :=
  s.output.bind fun tree => tree.label.type.shapeName?

end ShapeSql
