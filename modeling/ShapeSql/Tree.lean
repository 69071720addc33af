/-!
Rose trees. Field trees, relation trees and nesting levels are all of this shape: a label at each
node and its children in order. The tree is the thing that is computed with; the list of visits and
the arena of numbered entries are views of it in pre-order, parents before children.
-/

namespace ShapeSql

inductive Tree (α : Type u) where
  | node (label : α) (children : List (Tree α))

instance [Inhabited α] : Inhabited (Tree α) := ⟨.node default []⟩

namespace Tree

def label : Tree α → α
  | .node a _ => a

def children : Tree α → List (Tree α)
  | .node _ kids => kids

/-- A tree without children. -/
def leaf (a : α) : Tree α := .node a []

mutual

/-- The number of nodes. -/
def size : Tree α → Nat
  | .node _ kids => sizeAll kids + 1

def sizeAll : List (Tree α) → Nat
  | [] => 0
  | t :: ts => t.size + sizeAll ts

end

mutual

/-- The labels in pre-order. -/
def preorder : Tree α → List α
  | .node a kids => a :: preorderAll kids

def preorderAll : List (Tree α) → List α
  | [] => []
  | t :: ts => t.preorder ++ preorderAll ts

end

mutual

def map (f : α → β) : Tree α → Tree β
  | .node a kids => .node (f a) (mapAll f kids)

def mapAll (f : α → β) : List (Tree α) → List (Tree β)
  | [] => []
  | t :: ts => t.map f :: mapAll f ts

end

/-- A node as a walk meets it: its label, the labels above it, nearest first, and those of its
children. -/
structure Visit (α : Type u) where
  label : α
  ancestors : List α
  children : List α
  deriving Repr

mutual

def visitsBelow (ancestors : List α) : Tree α → List (Visit α)
  | .node a kids => ⟨a, ancestors, kids.map label⟩ :: visitsBelowAll (a :: ancestors) kids

def visitsBelowAll (ancestors : List α) : List (Tree α) → List (Visit α)
  | [] => []
  | t :: ts => t.visitsBelow ancestors ++ visitsBelowAll ancestors ts

end

/-- Every node with its surroundings, in pre-order. -/
def visits (t : Tree α) : List (Visit α) := t.visitsBelow []

/-- The node itself and what is above it, nearest first. -/
def Visit.lineage (v : Visit α) : List α := v.label :: v.ancestors

def Visit.parent? (v : Visit α) : Option α := v.ancestors.head?

/-- A numbered node: its position in pre-order, that of its parent and those of its children. -/
structure Entry (α : Type u) where
  id : Nat
  label : α
  parent : Option Nat
  children : List Nat
  deriving Repr

/-- The positions of sibling subtrees, the first of which stands at `next`. -/
def positions (next : Nat) : List (Tree α) → List Nat
  | [] => []
  | t :: ts => next :: positions (next + t.size) ts

mutual

def arenaFrom (next : Nat) (parent : Option Nat) : Tree α → List (Entry α)
  | .node a kids =>
    ⟨next, a, parent, positions (next + 1) kids⟩ :: arenaFromAll (next + 1) next kids

def arenaFromAll (next parent : Nat) : List (Tree α) → List (Entry α)
  | [] => []
  | t :: ts => t.arenaFrom next (some parent) ++ arenaFromAll (next + t.size) parent ts

end

/-- The nodes numbered in pre-order, the root first. -/
def arena (t : Tree α) : List (Entry α) := t.arenaFrom 0 none

/-- The entries above `id`, nearest first. A parent is numbered before its children, so the walk
up from `id` takes at most `id` steps. -/
def ancestors (entries : List (Entry α)) : Nat → Nat → List (Entry α)
  | 0, _ => []
  | steps + 1, id =>
    match entries[id]?.bind (·.parent) with
    | none => []
    | some parent => (entries[parent]?).toList ++ ancestors entries steps parent

end Tree
end ShapeSql
