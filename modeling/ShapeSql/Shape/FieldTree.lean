import ShapeSql.Shape.Directive
import ShapeSql.Tree

/-!
Field trees: the fields of a type or of an argument list, with the fields of every shape unfolded
below. Shapes may refer to each other in circles. A shape met again below itself is left unexpanded
and marked cyclic, unless the field spells out a via-relation that no field above declares; so a
branch repeats a shape at most once per declared field, and unfolding ends.
-/

namespace ShapeSql

/-- A field in its place. `origin` is the shape and field that declare it, none at the top. -/
structure Field where
  name : String
  type : FieldType
  nullable : Bool
  directives : Directives
  path : Path
  table : Option String
  cyclic : Bool
  origin : Option (String × String)
  deriving DecidableEq, Repr, Inhabited

namespace Field

/-- The name of the column the field maps to. -/
def columnName (f : Field) : String := f.directives.column.getD f.name

def isList (f : Field) : Bool := f.type.isList

def isScalar (f : Field) : Bool := f.type.isScalar

end Field

abbrev FieldTree := Tree Field

namespace FieldTree

def place (d : FieldDef) (path : Path) (origin : Option (String × String)) : Field :=
  ⟨d.name, d.type, d.nullable, d.directives, path, none, false, origin⟩

/-- Whether a field of this shape must stay unexpanded below the fields `above`. -/
def isCyclic (field : Field) (shape : String) (above : List Field) : Bool :=
  (above.any fun a => a.type.shapeName? == some shape)
    && (field.directives.via.isNone
      || above.any fun a => a.origin.isSome && a.origin == field.origin)

/-- A branch of expanded fields is no longer than this. -/
def depthBound (shapes : Shapes) : Nat := shapes.all.length + shapes.fieldCount + 3

/-- Unfolds a field below the fields `above`, nearest first. -/
def expand (shapes : Shapes) : Nat → List Field → Field → Except Error FieldTree
  | 0, _, field => .ok (.node field [])
  | depth + 1, above, field =>
    match field.type.shapeName? with
    | none => .ok (.node field [])
    | some name =>
      match shapes.get? name with
      | none => .error (.badName field.path.display (.shape name))
      | some shape =>
        let bound := { field with table := shape.table }
        if isCyclic bound name above then
          .ok (.node { bound with cyclic := true } [])
        else do
          let kids ← shape.fields.mapM fun d =>
            expand shapes depth (bound :: above)
              (place d (bound.path.join d.name) (some (shape.name, d.name)))
          return .node bound kids

/-- The tree of a type, its root named `name`. -/
def ofType (name : String) (type : FieldType) (shapes : Shapes) : Except Error FieldTree :=
  expand shapes (depthBound shapes) [] (place ⟨name, type, false, default⟩ .root none)

/-- The anonymous field above an argument list. -/
def argumentRoot : Field := place ⟨"", .shape "", false, default⟩ .root none

/-- The tree of an argument list. -/
def ofFields (fields : List FieldDef) (shapes : Shapes) : Except Error FieldTree := do
  let kids ← fields.mapM fun d =>
    expand shapes (depthBound shapes) [argumentRoot] (place d (Path.root.join d.name) none)
  return .node argumentRoot kids

/-- The number of the child of this name, up to case. -/
def childNamed (entries : List (Tree.Entry Field)) (id : Nat) (name : String) : Option Nat :=
  entries[id]?.bind fun entry =>
    entry.children.find? fun kid => entries[kid]?.any fun k => sameName k.label.name name

def findFrom (entries : List (Tree.Entry Field)) (id : Nat) : List String → Option Nat
  | [] => some id
  | step :: steps =>
    match childNamed entries id step with
    | none => none
    | some kid => findFrom entries kid steps

/-- The number of the field at a path. -/
def find? (t : FieldTree) (path : Path) : Option Nat := findFrom t.arena 0 path.steps

end FieldTree
end ShapeSql
