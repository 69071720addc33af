import ShapeSql.Proofs.Sql.Meaning

namespace ShapeSql.Sql

mutual

/-- The operands of a condition as a conjunction, those that are `1 = 1` left out. -/
def Expr.conditions : Expr → List Expr
  | .all operands => exprsConditions operands
  | e => if e.isTautology then [] else [e]

def exprsConditions : List Expr → List Expr
  | [] => []
  | e :: es => e.conditions ++ exprsConditions es

end

/-- A WHERE clause of these operands, none if all of them are left out. -/
def prunedWhere (filter : Option Expr) : Option Expr :=
  Expr.allOf? (filter.elim [] Expr.conditions)

mutual

/-- A condition whose subqueries are pruned. -/
def Expr.pruned : Expr → Expr
  | .all operands => .all (exprsPruned operands)
  | .any operands => .any (exprsPruned operands)
  | .exists query negated => .exists query.pruned negated
  | .group inner => .group inner.pruned
  | e => e

def exprsPruned : List Expr → List Expr
  | [] => []
  | e :: es => e.pruned :: exprsPruned es

def optionalPruned : Option Expr → Option Expr
  | none => none
  | some e => some e.pruned

/-- A query whose WHERE clause asks for nothing that is always true, and neither do those of its row
sources and of the subqueries in its condition. -/
def Query.pruned : Query → Query
  | ⟨distinct, projection, source, filter, groupBy, orderBy, offset, fetch⟩ =>
    ⟨distinct, projection, sourcePruned source, prunedWhere (optionalPruned filter), groupBy,
      orderBy, offset, fetch⟩

def sourcePruned : Option Source → Option Source
  | none => none
  | some ⟨base, joins⟩ => some ⟨base.pruned, joinsPruned joins⟩

def joinsPruned : List Join → List Join
  | [] => []
  | ⟨kind, factor, condition⟩ :: rest => ⟨kind, factor.pruned, condition⟩ :: joinsPruned rest

def Factor.pruned : Factor → Factor
  | .derived query aliasName => .derived query.pruned aliasName
  | s => s

end

def InsertSource.pruned : InsertSource → InsertSource
  | .query q => .query q.pruned
  | source => source

def Statement.pruned : Statement → Statement
  | .delete source filter => .delete source.pruned (prunedWhere (optionalPruned filter))
  | .insert target columns source => .insert target columns source.pruned
  | .merge m => .merge { m with target := m.target.pruned, source := m.source.pruned }
  | .query q => .query q.pruned
  | .update u => .update { u with
      source := sourcePruned u.source, filter := prunedWhere (optionalPruned u.filter) }
  | .declare name columns => .declare name columns

def Batch.pruned (batch : Batch) : Batch := batch.map Statement.pruned

section Meaning

variable {w : World} {env : Env}

theorem Truth.and_assoc (a b c : Truth) : (a.and b).and c = a.and (b.and c) := by
  cases a <;> cases b <;> cases c <;> rfl

@[simp] theorem Truth.and_yes (a : Truth) : a.and .yes = a := by
  cases a <;> rfl

theorem allTruth_append (xs ys : List Expr) :
    allTruth w env (xs ++ ys) = (allTruth w env xs).and (allTruth w env ys) := by
  induction xs with
  | nil =>
    rw [List.nil_append, allTruth]
    rfl
  | cons e es ih => rw [List.cons_append, allTruth, allTruth, ih, Truth.and_assoc]

theorem Expr.truth_of_isTautology {e : Expr} (h : e.isTautology = true) : e.truth w env = .yes := by
  unfold isTautology at h
  split at h
  · rw [truth, value, World.compare, w.dialect.equal.refl _]
    rfl
  · cases h

mutual

/-- The operands that are kept are together as true as the condition. -/
theorem Expr.truth_conditions : ∀ e : Expr, allTruth w env e.conditions = e.truth w env
  | .all operands => by rw [Expr.conditions, Expr.truth, allTruth_conditions operands]
  | .any _ | .compare _ _ _ | .column _ _ | .countAll | .exists _ _ | .group _ | .hole _
  | .inList _ _ _ | .isNull _ _ | .like _ _ _ | .int _ | .text _ | .null | .param _ => by
    rw [Expr.conditions]
    · split
      · rename_i htautology
        rw [Expr.truth_of_isTautology htautology, allTruth]
      · rw [allTruth, allTruth, Truth.and_yes]
    · intro operands hall
      cases hall

theorem allTruth_conditions : ∀ es : List Expr,
    allTruth w env (exprsConditions es) = allTruth w env es
  | [] => by rw [exprsConditions]
  | e :: es => by
    rw [exprsConditions, allTruth_append, e.truth_conditions, allTruth_conditions es, allTruth]

end

theorem optionalTruth_allOf? (operands : List Expr) :
    optionalTruth w env (Expr.allOf? operands) = allTruth w env operands := by
  have hconjuncts : ∀ e : Expr, allTruth w env e.conjuncts = e.truth w env := by
    intro e
    cases e with
    | all operands => rw [Expr.conjuncts, Expr.truth]
    | _ => simp [Expr.conjuncts, allTruth]
  have hflat : allTruth w env (operands.flatMap Expr.conjuncts) = allTruth w env operands := by
    induction operands with
    | nil => rfl
    | cons e es ih => rw [List.flatMap_cons, allTruth_append, hconjuncts, ih, allTruth]
  rw [← hflat, Expr.allOf?]
  rcases operands.flatMap Expr.conjuncts with _ | ⟨e, _ | ⟨e', rest⟩⟩
  · rw [optionalTruth, allTruth]
  · simp only [optionalTruth, allTruth, Truth.and_yes]
  · simp only [optionalTruth, Expr.truth]

theorem optionalTruth_prunedWhere (filter : Option Expr) :
    optionalTruth w env (prunedWhere filter) = optionalTruth w env filter := by
  rw [prunedWhere, optionalTruth_allOf?]
  cases filter with
  | none => rw [Option.elim_none, allTruth, optionalTruth]
  | some e => rw [Option.elim_some, e.truth_conditions, optionalTruth]

theorem Factor.reference_pruned (s : Factor) : s.pruned.reference = s.reference := by
  cases s with
  | table _ _ | tableVar _ _ => simp only [Factor.pruned]
  | derived _ _ =>
    rw [Factor.pruned]
    rfl

mutual

theorem Expr.truth_pruned : ∀ (e : Expr) (env : Env), e.pruned.truth w env = e.truth w env
  | .all operands, env => by rw [Expr.pruned, Expr.truth, Expr.truth, allTruth_pruned operands env]
  | .any operands, env => by rw [Expr.pruned, Expr.truth, Expr.truth, anyTruth_pruned operands env]
  | .exists query negated, env => by rw [Expr.pruned, Expr.truth, Expr.truth, query.rows_pruned env]
  | .group inner, env => by rw [Expr.pruned, Expr.truth, Expr.truth, inner.truth_pruned env]
  | .compare _ _ _, _ | .column _ _, _ | .countAll, _ | .hole _, _ | .inList _ _ _, _
  | .isNull _ _, _ | .like _ _ _, _ | .int _, _ | .text _, _ | .null, _ | .param _, _ => by
    simp only [Expr.pruned]

theorem allTruth_pruned : ∀ (es : List Expr) (env : Env),
    allTruth w env (exprsPruned es) = allTruth w env es
  | [], env => by rw [exprsPruned]
  | e :: es, env => by
    rw [exprsPruned, allTruth, allTruth, e.truth_pruned env, allTruth_pruned es env]

theorem anyTruth_pruned : ∀ (es : List Expr) (env : Env),
    anyTruth w env (exprsPruned es) = anyTruth w env es
  | [], env => by rw [exprsPruned]
  | e :: es, env => by
    rw [exprsPruned, anyTruth, anyTruth, e.truth_pruned env, anyTruth_pruned es env]

theorem optionalTruth_pruned : ∀ (e : Option Expr) (env : Env),
    optionalTruth w env (optionalPruned e) = optionalTruth w env e
  | none, env => by rw [optionalPruned]
  | some e, env => by rw [optionalPruned, optionalTruth, optionalTruth, e.truth_pruned env]

/-- A pruned query has the rows that it had before. -/
theorem Query.rows_pruned : ∀ (q : Query) (outer : Env), q.pruned.rows w outer = q.rows w outer
  | ⟨distinct, projection, source, filter, groupBy, orderBy, offset, fetch⟩, outer => by
    have hfilter : ∀ t : Tuple, optionalTruth w (t :: outer) (prunedWhere (optionalPruned filter)) =
        optionalTruth w (t :: outer) filter := by
      intro t
      rw [optionalTruth_prunedWhere, optionalTruth_pruned filter]
    rw [Query.pruned, Query.rows, Query.rows, sourceTuples_pruned source outer]
    simp only [hfilter]

theorem sourceTuples_pruned : ∀ (s : Option Source) (outer : Env),
    sourceTuples w outer (sourcePruned s) = sourceTuples w outer s
  | none, outer => by rw [sourcePruned]
  | some ⟨base, joins⟩, outer => by
    rw [sourcePruned, sourceTuples, sourceTuples, base.rows_pruned outer, base.reference_pruned]
    simp only [joinsTuples_pruned joins outer]

theorem joinsTuples_pruned : ∀ (joins : List Join) (outer : Env) (t : Tuple),
    joinsTuples w outer (joinsPruned joins) t = joinsTuples w outer joins t
  | [], outer, t => by rw [joinsPruned]
  | ⟨kind, factor, condition⟩ :: rest, outer, t => by
    rw [joinsPruned, joinsTuples, joinsTuples, factor.rows_pruned outer, factor.reference_pruned]
    simp only [joinsTuples_pruned rest outer]

theorem Factor.rows_pruned : ∀ (s : Factor) (outer : Env), s.pruned.rows w outer = s.rows w outer
  | .table _ _, outer | .tableVar _ _, outer => by simp only [Factor.pruned]
  | .derived query _, outer => by
    rw [Factor.pruned, Factor.rows, Factor.rows, query.rows_pruned outer]

end

end Meaning

section Asked

variable {f : HoleFiller}

theorem exprsConditions_eq (es : List Expr) : exprsConditions es = es.flatMap Expr.conditions := by
  induction es with
  | nil => rfl
  | cons e es ih => rw [exprsConditions, ih, List.flatMap_cons]

theorem exprsPruned_eq (es : List Expr) : exprsPruned es = es.map Expr.pruned := by
  induction es with
  | nil => rfl
  | cons e es ih => rw [exprsPruned, ih, List.map_cons]

/-- What a condition asks for once its holes are filled. -/
def Expr.asked (f : HoleFiller) (e : Expr) : List Expr := (e.filled f).pruned.conditions

/-- What a WHERE clause asks for once its holes are filled. -/
def askedWhere (f : HoleFiller) (filter : Option Expr) : List Expr := filter.elim [] (Expr.asked f)

theorem prunedWhere_filled (f : HoleFiller) (filter : Option Expr) :
    prunedWhere (optionalPruned (optionalFilled f filter)) = Expr.allOf? (askedWhere f filter) := by
  cases filter with
  | none => rfl
  | some e => rfl

namespace Expr

@[simp] theorem asked_tautology : tautology.asked f = [] := rfl

theorem asked_all (operands : List Expr) : (Expr.all operands).asked f = operands.flatMap (asked f) := by
  rw [asked, filled, pruned, conditions, exprsConditions_eq, exprsPruned_eq, exprsFilled_eq,
    List.flatMap_map, List.flatMap_map]
  rfl

/-- What asks for nothing adds nothing to a conjunction, nor does a conjunction that is taken in. -/
theorem asked_allOf? (operands : List Expr) :
    askedWhere f (allOf? operands) = operands.flatMap (asked f) := by
  have hconjuncts : ∀ e : Expr, e.conjuncts.flatMap (asked f) = e.asked f := by
    intro e
    cases e with
    | all operands => rw [conjuncts, asked_all]
    | _ => simp [conjuncts]
  have hflat : (operands.flatMap conjuncts).flatMap (asked f) = operands.flatMap (asked f) := by
    rw [List.flatMap_assoc]
    simp only [hconjuncts]
  rw [← hflat, allOf?]
  rcases operands.flatMap conjuncts with _ | ⟨e, _ | ⟨e', rest⟩⟩
  · rfl
  · rw [List.flatMap_singleton]
    rfl
  · exact asked_all (e :: e' :: rest)

theorem asked_and (left right : Expr) :
    (left.and right).asked f = left.asked f ++ right.asked f := by
  have hpair := asked_allOf? (f := f) [left, right]
  rw [List.flatMap_cons, List.flatMap_singleton] at hpair
  rw [← hpair, Expr.and, allOf]
  cases allOf? [left, right] with
  | none => rfl
  | some e => rfl

end Expr

namespace Query

/-- What a restricted query asks for. -/
theorem asked_restrict (q : Query) (e : Expr) :
    askedWhere f (q.restrict e).filter = askedWhere f q.filter ++ e.asked f := by
  obtain ⟨distinct, projection, source, filter, groupBy, orderBy, offset, fetch⟩ := q
  cases filter with
  | none => rfl
  | some filter => exact Expr.asked_and filter e

theorem asked_foldl {α : Type} (condition : α → Expr) (items : List α) (q : Query) :
    askedWhere f (items.foldl (fun q a => q.restrict (condition a)) q).filter =
      askedWhere f q.filter ++ items.flatMap fun a => (condition a).asked f := by
  induction items generalizing q with
  | nil => rw [List.foldl_nil, List.flatMap_nil, List.append_nil]
  | cons a items ih =>
    rw [List.foldl_cons, ih, asked_restrict, List.flatMap_cons, List.append_assoc]

/-- Queries that differ in their WHERE clauses only, and ask for the same, are pruned alike. -/
theorem pruned_filled_of_asked (q : Query) {filter filter' : Option Expr}
    (h : askedWhere f filter = askedWhere f filter') :
    (Query.filled f { q with filter := filter }).pruned =
      (Query.filled f { q with filter := filter' }).pruned := by
  obtain ⟨distinct, projection, source, _, groupBy, orderBy, offset, fetch⟩ := q
  rw [Query.filled, Query.filled, Query.pruned, Query.pruned, prunedWhere_filled,
    prunedWhere_filled, h]

end Query

end Asked

end ShapeSql.Sql
