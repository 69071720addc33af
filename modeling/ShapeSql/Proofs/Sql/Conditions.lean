import ShapeSql.Proofs.Sql.Meaning

namespace ShapeSql.Sql

theorem Truth.holds_or (a b : Truth) : (a.or b).holds = (a.holds || b.holds) := by
  cases a <;> cases b <;> rfl

theorem Truth.holds_not_or (a b : Truth) : (a.or b).not.holds = (a.not.holds && b.not.holds) := by
  cases a <;> cases b <;> rfl

theorem Truth.holds_unless (missing b : Bool) :
    (if missing then Truth.unknown else .ofBool b).holds = (!missing && b) := by
  cases missing <;> cases b <;> rfl

theorem Truth.holds_not_unless (missing b : Bool) :
    (if missing then Truth.unknown else .ofBool b).not.holds = (!missing && !b) := by
  cases missing <;> cases b <;> rfl

/-- The database tells one from zero, so that nothing is found where one equals zero. -/
def Dialect.Discerns (d : Dialect) : Prop := d.compare .eq (.i64 1) (.i64 0) = false

variable {w : World} {env : Env} {f : HoleFiller}

theorem value_param {name : String} {value : Value} (h : w.params.getExact? name = some value) :
    (Expr.param name).value w env = value := by
  rw [Expr.value, h, Option.getD_some]

namespace World

theorem holds_compare (w : World) (op : CompareOp) (a b : Value) : (w.compare op a b).holds =
    (!a.isNull && !b.isNull && w.dialect.compare op a b) := by
  rw [compare, Truth.holds_unless, Bool.not_or]

theorem holds_not_compare (w : World) (op : CompareOp) (a b : Value) : (w.compare op a b).not.holds =
    (!a.isNull && !b.isNull && !w.dialect.compare op a b) := by
  rw [compare, Truth.holds_not_unless, Bool.not_or]

theorem holds_like (w : World) (a pattern : Value) : (w.like a pattern).holds =
    (!a.isNull && !pattern.isNull && w.dialect.like a pattern) := by
  rw [like, Truth.holds_unless, Bool.not_or]

theorem holds_not_like (w : World) (a pattern : Value) : (w.like a pattern).not.holds =
    (!a.isNull && !pattern.isNull && !w.dialect.like a pattern) := by
  rw [like, Truth.holds_not_unless, Bool.not_or]

theorem holds_member (w : World) (a : Value) (items : List Value) : (w.member a items).holds =
    items.any fun item => (w.compare .eq a item).holds := by
  induction items with
  | nil => rfl
  | cons item items ih =>
    rw [member] at ih
    rw [member, List.foldr_cons, Truth.holds_or, ih, List.any_cons]

/-- A value is surely no member if it surely differs from every item. -/
theorem holds_not_member (w : World) (a : Value) (items : List Value) : (w.member a items).not.holds =
    items.all fun item => (w.compare .eq a item).not.holds := by
  induction items with
  | nil => rfl
  | cons item items ih =>
    rw [member] at ih
    rw [member, List.foldr_cons, Truth.holds_not_or, ih, List.all_cons]

end World

theorem holds_anyTruth (es : List Expr) : (anyTruth w env es).holds = es.any (Expr.holds w env) := by
  induction es with
  | nil => rw [anyTruth, List.any_nil, Truth.holds]
  | cons e es ih => rw [anyTruth, Truth.holds_or, ih, List.any_cons, Expr.holds]

namespace Expr

theorem holds_any (operands : List Expr) :
    (Expr.any operands).holds w env = operands.any (holds w env) := by
  rw [holds, truth, holds_anyTruth]

theorem holds_group (e : Expr) : (Expr.group e).holds w env = e.holds w env := by
  rw [holds, truth, holds]

theorem holds_compare (left right : Expr) (op : CompareOp) :
    (Expr.compare left op right).holds w env =
      (w.compare op (left.value w env) (right.value w env)).holds := by
  rw [holds, truth]

theorem holds_eq (left right : Expr) : (Expr.eq left right).holds w env =
    (w.compare .eq (left.value w env) (right.value w env)).holds :=
  holds_compare left right .eq

theorem holds_isNull (item : Expr) (negated : Bool) :
    (Expr.isNull item negated).holds w env = ((item.value w env).isNull != negated) := by
  rw [holds, truth, Truth.holds_ofBool]

theorem holds_inList (item : Expr) (items : List Expr) :
    (Expr.inList item items false).holds w env =
      items.any fun e => (w.compare .eq (item.value w env) (e.value w env)).holds := by
  rw [holds, truth]
  simp only [Bool.false_eq_true, if_false]
  rw [World.holds_member, List.any_map]
  rfl

theorem holds_notInList (item : Expr) (items : List Expr) :
    (Expr.inList item items true).holds w env =
      items.all fun e => (w.compare .eq (item.value w env) (e.value w env)).not.holds := by
  rw [holds, truth]
  simp only [if_true]
  rw [World.holds_not_member, List.all_map]
  rfl

theorem holds_contradiction (hdiscerns : w.dialect.Discerns) : contradiction.holds w env = false := by
  have hvalues : w.compare .eq (.i64 1) (.i64 0) = .no := by
    rw [World.compare, hdiscerns]
    rfl
  rw [contradiction, holds_eq]
  exact congrArg Truth.holds hvalues

@[simp] theorem filled_contradiction : contradiction.filled f = contradiction := by
  rw [contradiction, eq, filled, filled, filled]

theorem holds_disjuncts (e : Expr) :
    (e.disjuncts.any fun part => (part.filled f).holds w env) = (e.filled f).holds w env := by
  cases e with
  | any operands =>
    rw [disjuncts, filled, holds_any, exprsFilled_eq, List.any_map]
    rfl
  | _ => simp [disjuncts]

/-- A disjunction is true when one of its operands is. -/
theorem holds_anyOf (hdiscerns : w.dialect.Discerns) (operands : List Expr) :
    ((anyOf operands).filled f).holds w env =
      operands.any fun e => (e.filled f).holds w env := by
  have hflat : ((operands.flatMap disjuncts).any fun e => (e.filled f).holds w env) =
      operands.any fun e => (e.filled f).holds w env := by
    rw [List.any_flatMap]
    simp only [holds_disjuncts]
  rw [← hflat, anyOf, anyOf?]
  match operands.flatMap disjuncts with
  | [] => rw [Option.getD_none, filled_contradiction, holds_contradiction hdiscerns, List.any_nil]
  | [e] => simp
  | e :: e' :: rest =>
    rw [Option.getD_some, filled, holds_any, exprsFilled_eq, List.any_map]
    rfl

theorem holds_or (hdiscerns : w.dialect.Discerns) (left right : Expr) :
    ((left.or right).filled f).holds w env =
      ((left.filled f).holds w env || (right.filled f).holds w env) := by
  rw [Expr.or, holds_anyOf hdiscerns, List.any_cons, List.any_cons, List.any_nil, Bool.or_false]

section Closed

variable {operands : List Expr}

theorem exprsFilled_self (h : ∀ e ∈ operands, e.filled f = e) : exprsFilled f operands = operands := by
  rw [exprsFilled_eq, List.map_congr_left h, List.map_id']

/-- A conjunction of conditions without holes has none itself. -/
theorem filled_allOf (hparts : ∀ e ∈ operands, e.conjuncts = [e]) (h : ∀ e ∈ operands, e.filled f = e) :
    (allOf operands).filled f = allOf operands := by
  have hflat : operands.flatMap conjuncts = operands := by
    rw [List.flatMap_congr hparts, List.flatMap_singleton']
  rw [allOf, allOf?, hflat]
  rcases operands with _ | ⟨e, _ | ⟨e', rest⟩⟩
  · exact filled_tautology
  · exact h e List.mem_cons_self
  · rw [Option.getD_some, filled, exprsFilled_self h]

theorem filled_anyOf (hparts : ∀ e ∈ operands, e.disjuncts = [e]) (h : ∀ e ∈ operands, e.filled f = e) :
    (anyOf operands).filled f = anyOf operands := by
  have hflat : operands.flatMap disjuncts = operands := by
    rw [List.flatMap_congr hparts, List.flatMap_singleton']
  rw [anyOf, anyOf?, hflat]
  rcases operands with _ | ⟨e, _ | ⟨e', rest⟩⟩
  · exact filled_contradiction
  · exact h e List.mem_cons_self
  · rw [Option.getD_some, filled, exprsFilled_self h]

end Closed

end Expr

end ShapeSql.Sql
