import Mathlib.Tactic.Simps.Basic
import ShapeSql.Proofs.Sql.Collector
import ShapeSql.Sql.Fragment

/-!
What a statement leaves open. The leaves of a tree are its parameters, its holes with the kind of
fragment that their place needs, and the parts that cannot be written whatever the holes are filled
with. Writing a statement out, and the parameters it mentions once it is filled, depend on nothing
else, so planning is followed by what it does to leaves.
-/

namespace ShapeSql.Sql

inductive Leaf where
  | param (name : String)
  | hole (place : Place) (id : HoleId)
  /-- A part that cannot be written. -/
  | broken (fault : Fault)
  deriving DecidableEq, Repr

/-- A list without items cannot be written. -/
@[simps column param hole tableVar ordering]
def Collector.leaves : Collector Unit Leaf where
  param _ name := [.param name]
  hole _ place id := [.hole place id]
  emptyList _ := [.broken .emptyList]

instance : Collector.leaves.Plain := ⟨fun _ _ _ => rfl, fun _ => rfl⟩

/-- A bound assignment; holes do not stand among those. -/
def Assignment.boundLeaves : Assignment → List Leaf
  | .set _ value => value.collect .leaves ()
  | .hole id => [.broken (.openAssignment id)]

namespace Fragment

/-- The place that a fragment is made for. -/
def place : Fragment → Place
  | .expr _ => .expr
  | .order _ => .order
  | .assignments _ => .assignments
  | .rows _ => .rows

def leaves : Fragment → List Leaf
  | .expr e => e.collect .leaves ()
  | .order terms => terms.flatMap fun t => t.expr.collect .leaves ()
  | .assignments list => list.flatMap Assignment.boundLeaves
  | .rows data => data.flatMap (exprsCollect .leaves ())

end Fragment

def Batch.leaves (batch : Batch) : List Leaf := batch.flatMap (Statement.collect .leaves ())

/-- A parameter occurs below a leaf once the holes are filled: as the leaf itself, or below a leaf of
the fragment that the hole is bound to. -/
inductive Leaf.Mentions (subs : Substitution) (name : String) : Leaf → Prop where
  | param : Mentions subs name (.param name)
  | hole {place : Place} {id : HoleId} {fragment : Fragment} {leaf : Leaf} :
    subs.find? id = some fragment → leaf ∈ fragment.leaves → Mentions subs name leaf →
      Mentions subs name (.hole place id)

/-- A parameter occurs in the batch once the holes are filled. -/
def Batch.Mentions (batch : Batch) (subs : Substitution) (name : String) : Prop :=
  ∃ leaf ∈ batch.leaves, leaf.Mentions subs name

end ShapeSql.Sql
