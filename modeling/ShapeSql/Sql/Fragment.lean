import ShapeSql.Sql.Tree

namespace ShapeSql.Sql

inductive Fragment where
  | expr (expr : Expr)
  | order (terms : List OrderTerm)
  | assignments (assignments : List Assignment)
  | rows (rows : List (List Expr))

/-- Why a batch cannot be written out, or a binding not be completed: a batch that was not planned
for its substitution. -/
inductive Fault where
  | unbound (hole : HoleId)
  | misfit (hole : HoleId)
  | boundTwice (hole : HoleId)
  | circular (hole : HoleId)
  | openAssignment (hole : HoleId)
  | emptyList
  | emptyUpdate
  | shadowed (parameter : String)
  deriving DecidableEq, Repr

structure Substitution where
  fragments : List (HoleId × Fragment)
  deriving Inhabited

namespace Substitution

def empty : Substitution := ⟨[]⟩

def find? (s : Substitution) (hole : HoleId) : Option Fragment :=
  (s.fragments.find? fun entry => entry.1 == hole).map Prod.snd

def size (s : Substitution) : Nat := s.fragments.length

def insert (s : Substitution) (hole : HoleId) (fragment : Fragment) : Except Fault Substitution :=
  match s.find? hole with
  | some _ => .error (.boundTwice hole)
  | none => .ok ⟨s.fragments ++ [(hole, fragment)]⟩

end Substitution
end ShapeSql.Sql
