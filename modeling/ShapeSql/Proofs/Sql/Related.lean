import ShapeSql.Proofs.Sql.Collector
import ShapeSql.Proofs.Sql.Filled

namespace ShapeSql.Sql

variable {κ β γ : Type} {f : HoleFiller} {g : Collector κ β} {g' : Collector κ γ}
  {R : List β → List γ → Prop}

/-- What is taken from an open tree is in a relation to what is taken from the filled one: the relation
holds of the parts that are no holes, and of each hole and what stands in it. -/
structure HoleFiller.Relates (f : HoleFiller) (g : Collector κ β) (g' : Collector κ γ)
    (R : List β → List γ → Prop) : Prop where
  nil : R [] []
  append : ∀ {xs xs' ys ys'}, R xs ys → R xs' ys' → R (xs ++ xs') (ys ++ ys')
  inside : ∀ factors k, g'.inside (factors.map (Factor.filled f)) k = g.inside factors k
  column : ∀ k qualifier name, R (g.column k qualifier name) (g'.column k qualifier name)
  param : ∀ k name, R (g.param k name) (g'.param k name)
  emptyList : ∀ {xs ys}, R xs ys → R (g.emptyList xs) (g'.emptyList ys)
  tableVar : ∀ name, R (g.tableVar name) (g'.tableVar name)
  ordering : ∀ items, R (g.ordering items) (g'.ordering (orderItemsFilled f items))
  clause : ∀ base joins, R (g.clause ⟨base, joins⟩) (g'.clause ⟨base.filled f, joinsFilled f joins⟩)
  expr : ∀ k id, R (g.hole k .expr id) ((f.expr id).collect g' k)
  order : ∀ k id, R (g.hole k .order id) (orderItemsCollect g' k (f.order id))

/-- The same of the holes for assignments and rows. -/
structure HoleFiller.RelatesAll (f : HoleFiller) (g : Collector κ β) (g' : Collector κ γ)
    (R : List β → List γ → Prop) : Prop extends f.Relates g g' R where
  assignments : ∀ k id,
    R (g.hole k .assignments id) ((f.assignments id).flatMap (Assignment.collect g' k))
  rows : ∀ k id, R (g.hole k .rows id) ((f.rows id).collect g' k)

theorem sourceFilled_factors (s : Option Source) :
    (sourceFilled f s).elim [] Source.factors = (s.elim [] Source.factors).map (Factor.filled f) := by
  cases s with
  | none => rfl
  | some s =>
    obtain ⟨base, joins⟩ := s
    simp [sourceFilled, Source.factors, map_factor_joinsFilled]

mutual

theorem Expr.related (h : f.Relates g g' R) :
    ∀ (e : Expr) {k : κ}, R (e.collect g k) ((e.filled f).collect g' k)
  | .all operands, _ | .any operands, _ => by
    rw [Expr.filled, Expr.collect, Expr.collect]
    exact exprs_related h operands
  | .compare left _ right, _ | .like left right _, _ => by
    rw [Expr.filled, Expr.collect, Expr.collect]
    exact h.append (left.related h) (right.related h)
  | .column qualifier name, k => h.column k qualifier name
  | .exists query _, _ => by
    rw [Expr.filled, Expr.collect, Expr.collect]
    exact query.related h
  | .group inner, _ | .isNull inner _, _ => by
    rw [Expr.filled, Expr.collect, Expr.collect]
    exact inner.related h
  | .hole id, k => h.expr k id
  | .inList item [] _, _ => by
    rw [Expr.filled, exprsFilled, Expr.collect, Expr.collect]
    exact h.emptyList (item.related h)
  | .inList item (first :: rest) _, _ => by
    rw [Expr.filled, exprsFilled, Expr.collect, Expr.collect]
    exact h.append (item.related h) (h.append (first.related h) (exprs_related h rest))
  | .param name, k => h.param k name
  | .countAll, _ | .int _, _ | .text _, _ | .null, _ => h.nil

theorem exprs_related (h : f.Relates g g' R) :
    ∀ (es : List Expr) {k : κ}, R (exprsCollect g k es) (exprsCollect g' k (exprsFilled f es))
  | [], _ => h.nil
  | e :: es, _ => h.append (e.related h) (exprs_related h es)

theorem optional_related (h : f.Relates g g' R) : ∀ (e : Option Expr) {k : κ},
    R (optionalCollect g k e) (optionalCollect g' k (optionalFilled f e))
  | none, _ => h.nil
  | some e, _ => e.related h

theorem Query.related (h : f.Relates g g' R) :
    ∀ (q : Query) {k : κ}, R (q.collect g k) ((q.filled f).collect g' k)
  | ⟨_, projection, source, filter, groupBy, orderBy, offset, fetch⟩, k => by
    have hinside : g'.inside ((sourceFilled f source).elim [] Source.factors) k =
        g.inside (source.elim [] Source.factors) k := by
      rw [sourceFilled_factors, h.inside]
    rw [Query.filled, Query.collect, Query.collect, hinside]
    exact h.append (h.ordering orderBy) (h.append (projected_related h projection)
      (h.append (source_related h source) (h.append (optional_related h filter)
        (h.append (exprs_related h groupBy) (h.append (orderItems_related h orderBy)
          (h.append (optional_related h offset) (optional_related h fetch)))))))

theorem projected_related (h : f.Relates g g' R) : ∀ (ps : List Projected) {k : κ},
    R (projectedCollect g k ps) (projectedCollect g' k (projectedFilled f ps))
  | [], _ => h.nil
  | ⟨expr, _⟩ :: rest, _ => h.append (expr.related h) (projected_related h rest)

theorem source_related (h : f.Relates g g' R) : ∀ (s : Option Source) {k : κ},
    R (sourceCollect g k s) (sourceCollect g' k (sourceFilled f s))
  | none, _ => h.nil
  | some ⟨base, joins⟩, _ =>
    h.append (h.clause base joins) (h.append (base.related h) (joins_related h joins [base]))

theorem joins_related (h : f.Relates g g' R) : ∀ (js : List Join) (joined : List Factor) {k : κ},
    R (joinsCollect g k joined js) (joinsCollect g' k (joined.map (Factor.filled f)) (joinsFilled f js))
  | [], _, _ => h.nil
  | ⟨_, factor, condition⟩ :: rest, joined, k => by
    have hjoined : joined.map (Factor.filled f) ++ [factor.filled f] =
        (joined ++ [factor]).map (Factor.filled f) := by
      rw [List.map_append, List.map_singleton]
    rw [joinsFilled, joinsCollect, joinsCollect, hjoined, h.inside]
    exact h.append (factor.related h)
      (h.append (condition.related h) (joins_related h rest (joined ++ [factor])))

theorem Factor.related (h : f.Relates g g' R) :
    ∀ (s : Factor) {k : κ}, R (s.collect g k) ((s.filled f).collect g' k)
  | .table _ _, _ => h.nil
  | .tableVar name _, _ => h.tableVar name
  | .derived query _, _ => query.related h

theorem orderItems_related (h : f.Relates g g' R) : ∀ (items : List OrderItem) {k : κ},
    R (orderItemsCollect g k items) (orderItemsCollect g' k (orderItemsFilled f items))
  | [], _ => h.nil
  | .term ⟨expr, _⟩ :: rest, _ => h.append (expr.related h) (orderItems_related h rest)
  | .hole id :: rest, k => by
    rw [orderItemsFilled, orderItemsCollect_append, orderItemsCollect]
    exact h.append (h.order k id) (orderItems_related h rest)

end

/-- The terms that a value asks for are filled one by one. -/
theorem orderTerms_related (h : f.Relates g g' R) (terms : List OrderTerm) {k : κ} :
    R (terms.flatMap fun t => t.expr.collect g k)
      (orderItemsCollect g' k (terms.map fun t => .term (t.filled f))) := by
  induction terms with
  | nil => exact h.nil
  | cons t terms ih => exact h.append (t.expr.related h) ih

theorem rows_related (h : f.Relates g g' R) (data : List (List Expr)) {k : κ} :
    R (data.flatMap (exprsCollect g k)) ((data.map (exprsFilled f)).flatMap (exprsCollect g' k)) := by
  induction data with
  | nil => exact h.nil
  | cons row data ih => exact h.append (exprs_related h row) ih

theorem assignments_related (h : f.RelatesAll g g' R) (list : List Assignment) {k : κ} :
    R (list.flatMap (Assignment.collect g k))
      ((assignmentsFilled f list).flatMap (Assignment.collect g' k)) := by
  induction list with
  | nil => exact h.nil
  | cons a list ih =>
    cases a with
    | set column value => exact h.append (value.related h.toRelates) ih
    | hole id =>
      rw [assignmentsFilled, List.flatMap_append, List.flatMap_cons]
      exact h.append (h.assignments k id) ih

theorem Merge.related (h : f.RelatesAll g g' R) (m : Merge) {k : κ} :
    R (m.collect g k) ((m.filled f).collect g' k) := by
  have hr := h.toRelates
  have hboth : g'.inside [m.target.filled f, m.source.filled f] k = g.inside [m.target, m.source] k :=
    h.inside [m.target, m.source] k
  have hsource : g'.inside [m.source.filled f] k = g.inside [m.source] k := h.inside [m.source] k
  simp only [Merge.collect, Merge.filled, hboth, hsource]
  refine h.append (m.target.related hr) (h.append (m.source.related hr)
    (h.append (m.condition.related hr) (h.append (assignments_related h m.matchedUpdate)
      (h.append ?_ ?_))))
  · cases m.notMatchedInsert with
    | none => exact h.nil
    | some insert => exact exprs_related hr insert.values
  · cases m.output with
    | none => exact h.nil
    | some output => exact h.append (h.tableVar output.into) (exprs_related hr output.exprs)

theorem Update.factors_filled (u : Update) :
    (u.filled f).factors = u.factors.map (Factor.filled f) := by
  obtain ⟨target, assignments, source, filter⟩ := u
  cases source with
  | none => rfl
  | some s =>
    obtain ⟨base, joins⟩ := s
    exact sourceFilled_factors (some ⟨base, joins⟩)

theorem Update.related (h : f.RelatesAll g g' R) (u : Update) {k : κ} :
    R (u.collect g k) ((u.filled f).collect g' k) := by
  have hr := h.toRelates
  rw [Update.collect, Update.collect, Update.factors_filled, h.inside]
  exact h.append (assignments_related h u.assignments)
    (h.append (source_related hr u.source) (optional_related hr u.filter))

/-- What is taken from a statement is in the relation to what is taken from the filled one. -/
theorem Statement.related (h : f.RelatesAll g g' R) (st : Statement) {k : κ} :
    R (st.collect g k) ((st.filled f).collect g' k) := by
  have hr := h.toRelates
  cases st with
  | declare _ _ => exact h.nil
  | delete source filter =>
    have hinside : g'.inside [source.filled f] k = g.inside [source] k := h.inside [source] k
    rw [Statement.filled, Statement.collect, Statement.collect, hinside]
    exact h.append (source.related hr) (optional_related hr filter)
  | insert target columns source =>
    have htarget : R (target.collect g) (target.collect g') := by
      cases target with
      | table _ => exact h.nil
      | tableVar name => exact h.tableVar name
    refine h.append htarget ?_
    cases source with
    | rows data => exact rows_related hr data
    | hole id => exact h.rows k id
    | query q => exact q.related hr
  | merge m => exact m.related h
  | query q => exact q.related hr
  | update u => exact u.related h

end ShapeSql.Sql
