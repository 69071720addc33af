import ShapeSql.Proofs.Sql.Leaf
import ShapeSql.Proofs.Sql.Meaning
import ShapeSql.Proofs.Sql.Scope

/-!
What an expression depends on. Where all of its columns resolve, it means the same to any tuples that
agree on what resolves, and to any parameters that agree on those it mentions.
-/

namespace ShapeSql.Sql

/-- The cells that resolve in the scopes are the same on both sides. -/
def Env.Agree (scopes : Scopes) (env env' : Env) : Prop :=
  ∀ aliasName name, scopes.Resolve aliasName name → env.cell aliasName name = env'.cell aliasName name

namespace Tuple

def names (t : Tuple) : List String := t.map Prod.fst

theorem row?_eq_none {t : Tuple} {aliasName : String} :
    t.row? aliasName = none ↔ ∀ name ∈ t.names, sameName name aliasName = false := by
  simp [row?, names]

theorem row?_append (t u : Tuple) (aliasName : String) :
    Tuple.row? (t ++ u) aliasName = (t.row? aliasName).or (u.row? aliasName) := by
  rw [row?, List.find?_append]
  cases hfound : t.find? fun entry => sameName entry.1 aliasName with
  | some entry => simp [row?, hfound]
  | none => simp [row?, hfound]

end Tuple

namespace Env

variable {scopes : Scopes} {env env' : Env}

/-- Alike tuples of a query within others leave them alike. -/
theorem Agree.cons (h : env.Agree scopes env') {t : Tuple} {factors : List Factor} {c : Catalog}
    (hnames : t.names = factors.map Factor.reference) :
    Env.Agree (factors.map (Factor.offer c) :: scopes) (t :: env) (t :: env') := by
  intro aliasName name hresolve
  unfold cell
  cases hrow : t.row? aliasName with
  | some row => rfl
  | none =>
    apply h
    rw [Scopes.Resolve, if_neg] at hresolve
    · exact hresolve
    · intro hany
      obtain ⟨_, hoffer, hname⟩ := List.any_eq_true.mp hany
      obtain ⟨factor, hfactor, rfl⟩ := List.mem_map.mp hoffer
      have hnone := Tuple.row?_eq_none.mp hrow factor.reference
        (hnames ▸ List.mem_map_of_mem hfactor)
      rw [Factor.aliasName_offer, hnone] at hname
      cases hname

end Env

section Names

variable {w : World} {outer : Env}

/-- A joined tuple has the names of the row sources that it was joined to after its own. -/
theorem names_joinsTuples (joins : List Join) {t u : Tuple}
    (hu : u ∈ joinsTuples w outer joins t) :
    u.names = t.names ++ joins.map fun j => j.factor.reference := by
  induction joins generalizing t with
  | nil =>
    rw [joinsTuples, List.mem_singleton] at hu
    rw [hu, List.map_nil, List.append_nil]
  | cons j joins ih =>
    obtain ⟨kind, factor, condition⟩ := j
    rw [joinsTuples] at hu
    obtain ⟨joined, hjoined, hu⟩ := List.mem_flatMap.mp hu
    have hnames : joined.names = t.names ++ [factor.reference] := by
      have hfound : ∀ x ∈ ((factor.rows w outer).map fun row =>
          t ++ [(factor.reference, row)]).filter fun x => (condition.truth w (x :: outer)).holds,
          Tuple.names x = t.names ++ [factor.reference] := by
        intro x hx
        obtain ⟨row, _, rfl⟩ := List.mem_map.mp (List.mem_of_mem_filter hx)
        simp [Tuple.names]
      unfold JoinKind.padded at hjoined
      split at hjoined
      · rw [List.mem_singleton.mp hjoined]
        simp [Tuple.names]
      · exact hfound joined hjoined
    rw [ih hu, hnames, List.map_cons, List.append_assoc, List.singleton_append]

/-- The tuples of a FROM clause have its aliases. -/
theorem names_sourceTuples {s : Source} {t : Tuple} (ht : t ∈ sourceTuples w outer (some s)) :
    t.names = s.aliases := by
  obtain ⟨base, joins⟩ := s
  rw [sourceTuples] at ht
  obtain ⟨row, _, ht⟩ := List.mem_flatMap.mp ht
  rw [names_joinsTuples joins ht]
  simp [Source.aliases, Source.factors, Tuple.names]

/-- Sorting depends on how the items at hand compare. -/
theorem insertionSort_congr {α : Type} {r s : α → α → Prop} [DecidableRel r] [DecidableRel s]
    {items : List α} (h : ∀ a ∈ items, ∀ b ∈ items, r a b ↔ s a b) :
    items.insertionSort r = items.insertionSort s := by
  have hmap := List.map_insertionSort (r := r) (s := s) id items h
  rw [List.map_id, List.map_id] at hmap
  exact hmap

end Names

section Local

variable {c : Catalog} {w : World} {params : Record}

/-- The parameters are the same on both sides as far as they are mentioned. -/
def World.AgreeOn (w : World) (params : Record) (leaves : List Leaf) : Prop :=
  ∀ name, .param name ∈ leaves → Record.getExact? w.params name = Record.getExact? params name

theorem World.AgreeOn.left {xs ys : List Leaf} (h : w.AgreeOn params (xs ++ ys)) :
    w.AgreeOn params xs :=
  fun name hname => h name (List.mem_append_left _ hname)

theorem World.AgreeOn.right {xs ys : List Leaf} (h : w.AgreeOn params (xs ++ ys)) :
    w.AgreeOn params ys :=
  fun name hname => h name (List.mem_append_right _ hname)

/-- A column that resolves, or a clause: no hole. -/
def Site.Closed : Site → Prop
  | .column scopes aliasName name => scopes.Resolve aliasName name
  | .clause _ => True
  | .hole _ _ _ => False

/-- All columns resolve, and there are no holes. -/
def AllClosed (sites : List Site) : Prop := ∀ site ∈ sites, site.Closed

theorem allClosed_append {xs ys : List Site} : AllClosed (xs ++ ys) ↔ AllClosed xs ∧ AllClosed ys :=
  List.forall_mem_append

/-- The world under other parameters. -/
def World.under (w : World) (params : Record) : World := { w with params }

variable {scopes : Scopes} {env env' : Env}

theorem Expr.value_local (hagree : env.Agree scopes env') : ∀ (e : Expr),
    AllClosed (e.collect (.sites c) scopes) → w.AgreeOn params (e.collect .leaves ()) →
      e.value w env = e.value (w.under params) env'
  | .column (some (.source aliasName)) name, hclosed, _ => by
    rw [Expr.collect] at hclosed
    exact hagree aliasName name (hclosed _ List.mem_cons_self)
  | .group inner, hclosed, hparams => by
    rw [Expr.collect] at hclosed
    rw [Expr.collect] at hparams
    rw [Expr.value, Expr.value, inner.value_local hagree hclosed hparams]
  | .param name, _, hparams => by
    rw [Expr.value, Expr.value, hparams name List.mem_cons_self]
    rfl
  | .column (some .inserted) _, _, _ | .column none _, _, _ | .countAll, _, _ | .int _, _, _
  | .text _, _, _ | .null, _, _ | .all _, _, _ | .any _, _, _ | .compare _ _ _, _, _
  | .exists _ _, _, _ | .hole _, _, _ | .inList _ _ _, _, _ | .isNull _ _, _, _
  | .like _ _ _, _, _ => by simp [Expr.value]

theorem map_value_local (hagree : env.Agree scopes env') (es : List Expr)
    (hclosed : AllClosed (exprsCollect (.sites c) scopes es))
    (hparams : w.AgreeOn params (exprsCollect .leaves () es)) :
    es.map (Expr.value w env) = es.map (Expr.value (w.under params) env') := by
  induction es with
  | nil => rfl
  | cons e es ih =>
    rw [exprsCollect, allClosed_append] at hclosed
    rw [exprsCollect] at hparams
    rw [List.map_cons, List.map_cons, e.value_local hagree hclosed.1 hparams.left,
      ih hclosed.2 hparams.right]

theorem map_cell_local (hagree : env.Agree scopes env') (ps : List Projected)
    (hclosed : AllClosed (projectedCollect (.sites c) scopes ps))
    (hparams : w.AgreeOn params (projectedCollect .leaves () ps)) :
    ps.map (Projected.cell w env) = ps.map (Projected.cell (w.under params) env') := by
  induction ps with
  | nil => rfl
  | cons q ps ih =>
    obtain ⟨expr, aliasName⟩ := q
    rw [projectedCollect, allClosed_append] at hclosed
    rw [projectedCollect] at hparams
    rw [List.map_cons, List.map_cons, ih hclosed.2 hparams.right, Projected.cell, Projected.cell,
      expr.value_local hagree hclosed.1 hparams.left]

theorem sortKey_local (hagree : env.Agree scopes env') (items : List OrderItem)
    (hclosed : AllClosed (orderItemsCollect (.sites c) scopes items))
    (hparams : w.AgreeOn params (orderItemsCollect .leaves () items)) :
    sortKey w env items = sortKey (w.under params) env' items := by
  induction items with
  | nil => rfl
  | cons item items ih =>
    cases item with
    | term t =>
      obtain ⟨expr, direction⟩ := t
      rw [orderItemsCollect, allClosed_append] at hclosed
      rw [orderItemsCollect] at hparams
      have hrest := ih hclosed.2 hparams.right
      simp only [sortKey, List.filterMap_cons] at hrest ⊢
      rw [expr.value_local hagree hclosed.1 hparams.left, hrest]
    | hole id =>
      rw [orderItemsCollect] at hclosed
      exact (hclosed _ List.mem_cons_self).elim

theorem pageCount?_local (bound : Option Expr)
    (hparams : w.AgreeOn params (optionalCollect .leaves () bound)) :
    pageCount? w bound = pageCount? (w.under params) bound := by
  cases bound with
  | none => rfl
  | some e =>
    have hvalue : ∀ e : Expr, w.AgreeOn params (e.collect .leaves ()) →
        e.value w [] = e.value (w.under params) [] := by
      intro e
      induction e using Expr.value.induct with
      | case1 aliasName name => exact fun _ => rfl
      | case2 inner ih =>
        intro h
        rw [Expr.collect] at h
        rw [Expr.value, Expr.value, ih h]
      | case5 name =>
        intro h
        rw [Expr.value, Expr.value, h name List.mem_cons_self]
        rfl
      | _ => intro _; simp [Expr.value]
    rw [optionalCollect] at hparams
    rw [pageCount?, pageCount?, Option.bind_some, Option.bind_some, hvalue e hparams]

/-- Alike tuples are projected alike. -/
theorem projectRows_local {outer : Env} (outer' : Env) {offers : List Offer} (distinct : Bool)
    (projection : List Projected) {tuples : List Tuple}
    (hagree : ∀ t ∈ tuples, Env.Agree (offers :: scopes) (t :: outer) (t :: outer'))
    (hclosed : AllClosed (projectedCollect (.sites c) (offers :: scopes) projection))
    (hparams : w.AgreeOn params (projectedCollect .leaves () projection)) :
    projectRows w outer distinct projection tuples =
      projectRows (w.under params) outer' distinct projection tuples := by
  have hrows : (tuples.map fun t => projection.map (Projected.cell w (t :: outer))) =
      tuples.map fun t => projection.map (Projected.cell (w.under params) (t :: outer')) :=
    List.map_congr_left fun t ht => map_cell_local (hagree t ht) projection hclosed hparams
  rw [projectRows, projectRows, hrows]
  rfl

mutual

/-- A closed condition is as true for other tuples that agree with the first ones where it reads. -/
theorem Expr.truth_local : ∀ (e : Expr) {scopes : Scopes} {env env' : Env}, env.Agree scopes env' →
    AllClosed (e.collect (.sites c) scopes) → w.AgreeOn params (e.collect .leaves ()) →
      e.truth w env = e.truth (w.under params) env'
  | .all operands, scopes, env, env', hagree, hclosed, hparams => by
    rw [Expr.collect] at hclosed
    rw [Expr.collect] at hparams
    rw [Expr.truth, Expr.truth, allTruth_local operands hagree hclosed hparams]
  | .any operands, scopes, env, env', hagree, hclosed, hparams => by
    rw [Expr.collect] at hclosed
    rw [Expr.collect] at hparams
    rw [Expr.truth, Expr.truth, anyTruth_local operands hagree hclosed hparams]
  | .compare left op right, scopes, env, env', hagree, hclosed, hparams => by
    rw [Expr.collect, allClosed_append] at hclosed
    rw [Expr.collect] at hparams
    rw [Expr.truth, Expr.truth, left.value_local hagree hclosed.1 hparams.left,
      right.value_local hagree hclosed.2 hparams.right]
    rfl
  -- A subquery reads its own rows before those around it, so its scopes are one deeper.
  | .exists query negated, scopes, env, env', hagree, hclosed, hparams => by
    rw [Expr.collect] at hclosed
    rw [Expr.collect] at hparams
    rw [Expr.truth, Expr.truth, query.rows_local hagree hclosed hparams]
  | .group inner, scopes, env, env', hagree, hclosed, hparams => by
    rw [Expr.collect] at hclosed
    rw [Expr.collect] at hparams
    rw [Expr.truth, Expr.truth, inner.truth_local hagree hclosed hparams]
  | .inList item [] negated, scopes, env, env', hagree, hclosed, hparams => by
    rw [Expr.truth, Expr.truth]
    rfl
  | .inList item (first :: rest) negated, scopes, env, env', hagree, hclosed, hparams => by
    rw [Expr.collect, allClosed_append] at hclosed
    rw [Expr.collect] at hparams
    rw [Expr.truth, Expr.truth, item.value_local hagree hclosed.1 hparams.left,
      map_value_local hagree (first :: rest) hclosed.2 hparams.right]
    rfl
  | .isNull item negated, scopes, env, env', hagree, hclosed, hparams => by
    rw [Expr.collect] at hclosed
    rw [Expr.collect] at hparams
    rw [Expr.truth, Expr.truth, item.value_local hagree hclosed hparams]
  | .like item pattern negated, scopes, env, env', hagree, hclosed, hparams => by
    rw [Expr.collect, allClosed_append] at hclosed
    rw [Expr.collect] at hparams
    rw [Expr.truth, Expr.truth, item.value_local hagree hclosed.1 hparams.left,
      pattern.value_local hagree hclosed.2 hparams.right]
    rfl
  | .column _ _, _, _, _, _, _, _ => by rw [Expr.truth, Expr.truth]
  | .countAll, _, _, _, _, _, _ => by rw [Expr.truth, Expr.truth]
  | .hole _, _, _, _, _, _, _ => by rw [Expr.truth, Expr.truth]
  | .int _, _, _, _, _, _, _ => by rw [Expr.truth, Expr.truth]
  | .text _, _, _, _, _, _, _ => by rw [Expr.truth, Expr.truth]
  | .null, _, _, _, _, _, _ => by rw [Expr.truth, Expr.truth]
  | .param _, _, _, _, _, _, _ => by rw [Expr.truth, Expr.truth]

theorem allTruth_local : ∀ (es : List Expr) {scopes : Scopes} {env env' : Env},
    env.Agree scopes env' → AllClosed (exprsCollect (.sites c) scopes es) →
      w.AgreeOn params (exprsCollect .leaves () es) →
        allTruth w env es = allTruth (w.under params) env' es
  | [], _, _, _, _, _, _ => by rw [allTruth, allTruth]
  | e :: es, scopes, env, env', hagree, hclosed, hparams => by
    rw [exprsCollect, allClosed_append] at hclosed
    rw [exprsCollect] at hparams
    rw [allTruth, allTruth, e.truth_local hagree hclosed.1 hparams.left,
      allTruth_local es hagree hclosed.2 hparams.right]

theorem anyTruth_local : ∀ (es : List Expr) {scopes : Scopes} {env env' : Env},
    env.Agree scopes env' → AllClosed (exprsCollect (.sites c) scopes es) →
      w.AgreeOn params (exprsCollect .leaves () es) →
        anyTruth w env es = anyTruth (w.under params) env' es
  | [], _, _, _, _, _, _ => by rw [anyTruth, anyTruth]
  | e :: es, scopes, env, env', hagree, hclosed, hparams => by
    rw [exprsCollect, allClosed_append] at hclosed
    rw [exprsCollect] at hparams
    rw [anyTruth, anyTruth, e.truth_local hagree hclosed.1 hparams.left,
      anyTruth_local es hagree hclosed.2 hparams.right]

theorem optionalTruth_local : ∀ (e : Option Expr) {scopes : Scopes} {env env' : Env},
    env.Agree scopes env' → AllClosed (optionalCollect (.sites c) scopes e) →
      w.AgreeOn params (optionalCollect .leaves () e) →
        optionalTruth w env e = optionalTruth (w.under params) env' e
  | none, _, _, _, _, _, _ => by rw [optionalTruth, optionalTruth]
  | some e, scopes, env, env', hagree, hclosed, hparams => by
    rw [optionalCollect] at hclosed
    rw [optionalCollect] at hparams
    rw [optionalTruth, optionalTruth, e.truth_local hagree hclosed hparams]

theorem Query.rows_local : ∀ (q : Query) {outer : Scopes} {env env' : Env}, env.Agree outer env' →
    AllClosed (q.collect (.sites c) outer) → w.AgreeOn params (q.collect .leaves ()) →
      q.rows w env = q.rows (w.under params) env'
  | ⟨distinct, projection, source, filter, groupBy, orderBy, offset, fetch⟩, outer, env, env',
      hagree, hclosed, hparams => by
    rw [Query.collect] at hclosed
    simp only [allClosed_append] at hclosed
    obtain ⟨_, hprojection, hsource, hfilter, _, horder, _⟩ := hclosed
    rw [Query.collect] at hparams
    replace hparams := hparams.right
    have hrest := hparams.right.right.right.right
    have hinner : ∀ t ∈ sourceTuples w env source,
        Env.Agree ((source.elim [] Source.factors).map (Factor.offer c) :: outer) (t :: env)
          (t :: env') := by
      intro t ht
      apply hagree.cons
      cases source with
      | none =>
        rw [sourceTuples, List.mem_singleton] at ht
        rw [ht]
        rfl
      | some s => exact names_sourceTuples ht
    have hkept : (sourceTuples w env source).filter (fun t =>
        (optionalTruth w (t :: env) filter).holds) =
          (sourceTuples (w.under params) env' source).filter fun t =>
            (optionalTruth (w.under params) (t :: env') filter).holds := by
      rw [← sourceTuples_local source hagree hsource hparams.right.left]
      apply List.filter_congr
      intro t ht
      rw [optionalTruth_local filter (hinner t ht) hfilter hparams.right.right.left]
    have hsorted : ((sourceTuples w env source).filter fun t =>
        (optionalTruth w (t :: env) filter).holds).insertionSort (fun t u =>
          w.dialect.precedes (sortKey w (t :: env) orderBy) (sortKey w (u :: env) orderBy) = true) =
        ((sourceTuples (w.under params) env' source).filter fun t =>
          (optionalTruth (w.under params) (t :: env') filter).holds).insertionSort (fun t u =>
            (w.under params).dialect.precedes (sortKey (w.under params) (t :: env') orderBy)
              (sortKey (w.under params) (u :: env') orderBy) = true) := by
      rw [← hkept]
      apply insertionSort_congr
      intro t ht u hu
      rw [sortKey_local (hinner t (List.mem_of_mem_filter ht)) orderBy horder hrest.left,
        sortKey_local (hinner u (List.mem_of_mem_filter hu)) orderBy horder hrest.left]
      rfl
    rw [Query.rows, Query.rows]
    rw [← hsorted, projectRows_local env' distinct projection ?_ hprojection hparams.left,
      pageRows, pageRows, pageCount?_local offset hrest.right.left,
      pageCount?_local fetch hrest.right.right]
    intro t ht
    exact hinner t (List.mem_of_mem_filter ((List.mem_insertionSort _).mp ht))

theorem sourceTuples_local : ∀ (s : Option Source) {outer : Scopes} {env env' : Env},
    env.Agree outer env' → AllClosed (sourceCollect (.sites c) outer s) →
      w.AgreeOn params (sourceCollect .leaves () s) →
      sourceTuples w env s = sourceTuples (w.under params) env' s
  | none, _, _, _, _, _, _ => by rw [sourceTuples, sourceTuples]
  | some ⟨base, joins⟩, outer, env, env', hagree, hclosed, hparams => by
    rw [sourceCollect] at hclosed
    simp only [allClosed_append] at hclosed
    rw [sourceCollect] at hparams
    rw [sourceTuples, sourceTuples, ← base.rows_local hagree hclosed.2.1 hparams.right.left]
    apply List.flatMap_congr
    intro row _
    exact joinsTuples_local joins hagree rfl hclosed.2.2 hparams.right.right

theorem joinsTuples_local : ∀ (joins : List Join) {outer : Scopes} {env env' : Env}
    {joined : List Factor} {t : Tuple}, env.Agree outer env' →
      t.names = joined.map Factor.reference → AllClosed (joinsCollect (.sites c) outer joined joins) →
        w.AgreeOn params (joinsCollect .leaves () joined joins) →
          joinsTuples w env joins t = joinsTuples (w.under params) env' joins t
  | [], _, _, _, _, _, _, _, _, _ => by rw [joinsTuples, joinsTuples]
  | ⟨kind, factor, condition⟩ :: rest, outer, env, env', joined, t, hagree, hnames, hclosed,
      hparams => by
    rw [joinsCollect, allClosed_append, allClosed_append] at hclosed
    rw [joinsCollect] at hparams
    have hnext : ∀ row : Row, Tuple.names (t ++ [(factor.reference, row)]) =
        (joined ++ [factor]).map Factor.reference := by
      intro row
      rw [List.map_append, ← hnames, List.map_singleton]
      simp [Tuple.names]
    have hfound : (((factor.rows w env).map fun row => t ++ [(factor.reference, row)]).filter
        fun x => (condition.truth w (x :: env)).holds) =
        ((factor.rows (w.under params) env').map fun row => t ++ [(factor.reference, row)]).filter
          fun x => (condition.truth (w.under params) (x :: env')).holds := by
      rw [← factor.rows_local hagree hclosed.1 hparams.left]
      apply List.filter_congr
      intro x hx
      obtain ⟨row, _, rfl⟩ := List.mem_map.mp hx
      rw [condition.truth_local (hagree.cons (hnext row)) hclosed.2.1 hparams.right.left]
    rw [joinsTuples, joinsTuples, ← hfound]
    apply List.flatMap_congr
    intro x hx
    have hx' : ∃ row : Row, x = t ++ [(factor.reference, row)] := by
      unfold JoinKind.padded at hx
      split at hx
      · exact ⟨[], List.mem_singleton.mp hx⟩
      · obtain ⟨row, _, rfl⟩ := List.mem_map.mp (List.mem_of_mem_filter hx)
        exact ⟨row, rfl⟩
    obtain ⟨row, rfl⟩ := hx'
    exact joinsTuples_local rest hagree (hnext row) hclosed.2.2 hparams.right.right

theorem Factor.rows_local : ∀ (s : Factor) {outer : Scopes} {env env' : Env}, env.Agree outer env' →
    AllClosed (s.collect (.sites c) outer) → w.AgreeOn params (s.collect .leaves ()) →
      s.rows w env = s.rows (w.under params) env'
  | .table _ _, _, _, _, _, _, _ => by
    rw [Factor.rows, Factor.rows]
    rfl
  | .tableVar _ _, _, _, _, _, _, _ => by
    rw [Factor.rows, Factor.rows]
    rfl
  | .derived query _, outer, env, env', hagree, hclosed, hparams => by
    rw [Factor.collect] at hclosed
    rw [Factor.collect] at hparams
    rw [Factor.rows, Factor.rows, query.rows_local hagree hclosed hparams]

end

end Local

end ShapeSql.Sql
