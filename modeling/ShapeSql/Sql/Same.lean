import ShapeSql.Sql.Tree

namespace ShapeSql.Sql

mutual

def Expr.same : Expr → Expr → Bool
  | .all a, .all b => sameExprs a b
  | .any a, .any b => sameExprs a b
  | .compare a op b, .compare a' op' b' => a.same a' && op == op' && b.same b'
  | .column q n, .column q' n' => q == q' && n == n'
  | .countAll, .countAll => true
  | .exists q n, .exists q' n' => q.same q' && n == n'
  | .group a, .group b => a.same b
  | .hole a, .hole b => a == b
  | .inList e es n, .inList e' es' n' => e.same e' && sameExprs es es' && n == n'
  | .isNull e n, .isNull e' n' => e.same e' && n == n'
  | .like e p n, .like e' p' n' => e.same e' && p.same p' && n == n'
  | .int a, .int b => a == b
  | .text a, .text b => a == b
  | .null, .null => true
  | .param a, .param b => a == b
  | _, _ => false
termination_by structural left => left

def sameExprs : List Expr → List Expr → Bool
  | [], [] => true
  | a :: as, b :: bs => a.same b && sameExprs as bs
  | _, _ => false
termination_by structural left => left

def sameOptional : Option Expr → Option Expr → Bool
  | none, none => true
  | some a, some b => a.same b
  | _, _ => false
termination_by structural left => left

def Query.same : Query → Query → Bool
  | ⟨d, p, s, f, g, o, off, fe⟩, ⟨d', p', s', f', g', o', off', fe'⟩ =>
    d == d' && sameProjected p p' && sameSource s s' && sameOptional f f' && sameExprs g g'
      && sameItems o o' && sameOptional off off' && sameOptional fe fe'
termination_by structural left => left

def sameProjected : List Projected → List Projected → Bool
  | [], [] => true
  | ⟨e, a⟩ :: ps, ⟨e', a'⟩ :: ps' => e.same e' && a == a' && sameProjected ps ps'
  | _, _ => false
termination_by structural left => left

def sameSource : Option Source → Option Source → Bool
  | none, none => true
  | some ⟨b, js⟩, some ⟨b', js'⟩ => b.same b' && sameJoins js js'
  | _, _ => false
termination_by structural left => left

def sameJoins : List Join → List Join → Bool
  | [], [] => true
  | ⟨k, f, c⟩ :: js, ⟨k', f', c'⟩ :: js' => k == k' && f.same f' && c.same c' && sameJoins js js'
  | _, _ => false
termination_by structural left => left

def Factor.same : Factor → Factor → Bool
  | .table n a, .table n' a' => n == n' && a == a'
  | .tableVar n a, .tableVar n' a' => n == n' && a == a'
  | .derived q a, .derived q' a' => q.same q' && a == a'
  | _, _ => false
termination_by structural left => left

def sameItems : List OrderItem → List OrderItem → Bool
  | [], [] => true
  | .term ⟨e, d⟩ :: is, .term ⟨e', d'⟩ :: is' => e.same e' && d == d' && sameItems is is'
  | .hole h :: is, .hole h' :: is' => h == h' && sameItems is is'
  | _, _ => false
termination_by structural left => left

end

instance : BEq Expr := ⟨Expr.same⟩

end ShapeSql.Sql
