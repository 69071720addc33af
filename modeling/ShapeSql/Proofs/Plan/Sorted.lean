import ShapeSql.Proofs.Plan.Collected
import ShapeSql.Proofs.Plan.CountRows
import ShapeSql.Proofs.Plan.Unpaged
import ShapeSql.Proofs.Sql.Orderings

namespace ShapeSql

open Sql Planning

/-- No query in what the rule puts into its hole is ordered. -/
def Action.Unsorted : Action → Prop
  | .predicate p => Sql.Unsorted (p.column.collect .orderings ())
  | .guard _ expr | .order expr => Sql.Unsorted (expr.collect .orderings ())
  | .keyMatch columns _ => ∀ column ∈ columns, Sql.Unsorted (column.1.collect .orderings ())
  | .dynamicOrder _ _ | .assign _ _ _ | .rows _ => True

def Draft.Unsorted (d : Draft) : Prop := ∀ rule ∈ d.rules, rule.action.Unsorted

namespace Planning

variable {α β : Type} {P : α → Prop} {Q : β → Prop}

/-- What the computation yields is as said, and so are the rules it leaves, if those before were. -/
def Plans (P : α → Prop) (m : Planning α) : Prop :=
  ∀ d a d', d.Unsorted → m.run d = .ok (a, d') → d'.Unsorted ∧ P a

theorem Plans.pure {a : α} (h : P a) : Plans P (pure a) := by
  intro d b d' hd hrun
  obtain ⟨rfl, rfl⟩ := run_pure_ok.mp hrun
  exact ⟨hd, h⟩

theorem Plans.throw (e : Error) : Plans P (throw e) :=
  fun _ _ _ _ hrun => (run_throw_ok.mp hrun).elim

theorem Plans.lift (x : Except Error α) : Plans (fun _ => True) (liftM x : Planning α) := by
  intro d b d' hd hrun
  obtain ⟨-, rfl⟩ := run_lift_ok.mp hrun
  exact ⟨hd, trivial⟩

theorem Plans.bind {m : Planning α} {f : α → Planning β} (hm : Plans P m)
    (hf : ∀ a, P a → Plans Q (f a)) : Plans Q (m >>= f) := by
  intro d b d' hd hrun
  obtain ⟨a, between, hfirst, hrest⟩ := run_bind_ok.mp hrun
  obtain ⟨hbetween, ha⟩ := hm d a between hd hfirst
  exact hf a ha between b d' hbetween hrest

theorem Plans.foldlM {f : β → α → Planning β} (hf : ∀ b a, Q b → Plans Q (f b a)) {start : β}
    (hstart : Q start) (items : List α) : Plans Q (items.foldlM f start) := by
  induction items generalizing start with
  | nil =>
    rw [List.foldlM_nil]
    exact .pure hstart
  | cons a items ih =>
    rw [List.foldlM_cons]
    exact .bind (hf start a hstart) fun _ h => ih h

theorem plans_rule (path : Path) {action : Action} (h : action.Unsorted) :
    Plans (fun _ => True) (rule path action) := by
  intro d hole d' hd hrun
  cases hrun
  refine ⟨?_, trivial⟩
  intro rule hrule
  rcases List.mem_append.mp hrule with hold | hnew
  · exact hd rule hold
  · rw [List.mem_singleton.mp hnew]
    exact h

theorem plans_param (path : Path) (transform : Transform) :
    Plans (fun _ => True) (param path transform) := by
  intro d name d' hd hrun
  rcases param_cases hrun with ⟨rfl, _⟩ | ⟨_, rfl⟩
  · exact ⟨hd, trivial⟩
  · exact ⟨hd, trivial⟩

theorem plans_baseName (wanted : String) : Plans (fun _ => True) (baseName wanted) := by
  intro d name d' hd hrun
  cases hrun
  exact ⟨hd, trivial⟩

theorem plans_freshAlias (stem : String) : Plans (fun _ => True) (freshAlias stem) := by
  intro d name d' hd hrun
  cases hrun
  exact ⟨hd, trivial⟩

end Planning

/-- The query is sorted by these items, and so is every query within it that is sorted at all. -/
structure Sql.Query.SortedBy (q : Query) (items : List OrderItem) : Prop where
  own : q.orderBy = items
  within : ∀ list ∈ q.collect .orderings (), list = [] ∨ list = items

/-- An expression without ordered queries. -/
def Sql.Expr.Unsorted (e : Expr) : Prop := Sql.Unsorted (e.collect .orderings ())

theorem Sql.Expr.unsorted_of_nil {e : Expr} (h : e.collect .orderings () = []) : e.Unsorted := by
  rw [Expr.Unsorted, h]
  exact .nil

theorem Sql.Expr.unsorted_allOf {operands : List Expr} (h : ∀ e ∈ operands, e.Unsorted) :
    (Expr.allOf operands).Unsorted := by
  rw [Expr.Unsorted, Expr.collect_allOf, Sql.Unsorted, List.forall_mem_flatMap]
  exact h

namespace Planner

variable (p : Planner)

section Filters

theorem predicate_plans {column : Expr} (h : column.Unsorted) (field : Field)
    (ignore : Option Ignore) : Plans Expr.Unsorted (predicate column field ignore) := by
  have hparam : Plans (fun _ => True) (predicateParam field) := by
    rcases predicateParam_eq field with ⟨_, heq⟩ | ⟨_, transform, _, heq⟩
    · rw [heq]
      exact plans_baseName _
    · rw [heq]
      exact plans_param _ _
  refine .bind hparam fun _ _ => .bind (plans_rule _ h) fun _ _ => .pure ?_
  exact Expr.unsorted_of_nil (by simp)

theorem guarded_plans (path : Path) (ignore : Option Ignore) {expr : Expr} (h : expr.Unsorted) :
    Plans Expr.Unsorted (guarded path ignore expr) := by
  unfold guarded
  split
  · exact .pure h
  · refine .bind (plans_rule _ h) fun _ _ => .pure ?_
    exact Expr.unsorted_of_nil (by simp)

theorem tautology_plans : Plans Expr.Unsorted (pure .tautology) :=
  .pure (Expr.unsorted_of_nil Expr.collect_tautology)

theorem chain_plans (outer : String) (legs : List Leg) :
    Plans (fun found => ∀ chained ∈ found, Unsorted (sourceCollect .orderings () (some chained.1)) ∧
      chained.2.1.Unsorted) (p.chain outer legs) := by
  unfold chain
  split
  · exact .pure nofun
  · rename_i first rest
    refine .bind (plans_freshAlias _) fun aliasName _ => .bind (P := fun walked =>
      Unsorted (sourceCollect .orderings () (some walked.1)))
        (.foldlM (fun walked leg hwalked => ?_) ?_ _)
        fun walked hwalked => .pure ?_
    · refine .bind (plans_freshAlias _) fun _ _ => .pure ?_
      rw [Source.collect_join]
      simpa using hwalked
    · simp
    · intro chained hchained
      cases hchained
      exact ⟨hwalked, Expr.unsorted_of_nil (p.collect_pairsEq _ _ _)⟩

theorem viaExists_plans (scope : Scope) (v : Via) (field : Field) :
    Plans Expr.Unsorted (p.viaExists scope v field) := by
  unfold viaExists
  refine .bind (.lift _) fun legs _ => .bind (p.chain_plans _ _) fun found hfound => ?_
  split
  · exact tautology_plans
  · obtain ⟨hsource, htie⟩ := hfound _ rfl
    refine .bind (.lift _) fun _ _ => .bind (predicate_plans
      (Expr.unsorted_of_nil (Expr.collect_columnOf _ _)) _ _) fun condition hcondition => .pure ?_
    intro items hitems
    rw [Expr.collect, Query.mem_collect_restrict, Query.mem_collect_restrict,
      mem_collect_probe] at hitems
    rcases hitems with ((hown | hin) | hin) | hin
    · exact List.mem_singleton.mp hown
    · exact hsource items hin
    · exact htie items hin
    · exact hcondition items hin

theorem linked_plans (outer : String) (target : Table) (link : Link) :
    Plans (fun found => Unsorted (sourceCollect .orderings () (some found.2.1)) ∧ found.2.2.Unsorted)
      (p.linked outer target link) := by
  unfold linked
  refine .bind (plans_freshAlias _) fun _ _ => ?_
  split
  · exact .pure ⟨by simp, Expr.unsorted_of_nil (p.collect_pairsEq _ _ _)⟩
  · exact .pure ⟨by simp, Expr.unsorted_of_nil (p.collect_pairsEq _ _ _)⟩
  · exact .bind (plans_freshAlias _) fun _ _ =>
      .pure ⟨by simp [Source.collect_join], Expr.unsorted_of_nil (p.collect_pairsEq _ _ _)⟩

/-- An existence test over unordered row sources and conditions is unordered. -/
theorem relatedExists_unsorted {source : Source} {tie filters : Expr}
    (hsource : Unsorted (sourceCollect .orderings () (some source))) (htie : tie.Unsorted)
    (hfilters : filters.Unsorted) : (relatedExists source tie filters).Unsorted := by
  intro items hitems
  rcases mem_collect_relatedExists hitems with hown | hin | hin | hin
  · exact List.mem_singleton.mp hown
  · exact hsource items hin
  · exact htie items hin
  · exact hfilters items hin

mutual

theorem fieldFilter_plans : ∀ (t : FieldTree) (scope : Scope) (ignore : Option Ignore),
    Plans Expr.Unsorted (p.fieldFilter scope ignore t)
  | .node field kids, scope, ignore => by
    rw [fieldFilter]
    split
    · rename_i v _
      have hvia : Plans Expr.Unsorted (do
          let condition ← p.viaExists scope v field
          guarded field.path ignore condition) :=
        .bind (p.viaExists_plans _ _ _) fun _ h => guarded_plans _ _ h
      split
      · exact .bind (P := fun _ => True) (.throw _) fun _ _ => hvia
      · exact hvia
    · split
      · exact .bind (.lift _) fun _ _ =>
          predicate_plans (Expr.unsorted_of_nil (Expr.collect_columnOf _ _)) _ _
      · split
        · exact tautology_plans
        · split
          · exact .throw _
          · refine .bind (.lift _) fun other _ => ?_
            split
            · exact .bind (nestedFilters_plans kids _) fun _ h =>
                guarded_plans _ _ (Expr.unsorted_allOf h)
            · exact .bind (.lift _) fun _ _ => .bind (p.linked_plans _ _ _) fun _ hlinked =>
                .bind (nestedFilters_plans kids _) fun _ h => guarded_plans _ _
                  (relatedExists_unsorted hlinked.1 hlinked.2 (Expr.unsorted_allOf h))

theorem nestedFilters_plans : ∀ (ts : List FieldTree) (scope : Scope),
    Plans (fun es => ∀ e ∈ es, e.Unsorted) (p.nestedFilters scope ts)
  | [], scope => by
    rw [nestedFilters]
    exact .pure nofun
  | t :: ts, scope => by
    rw [nestedFilters]
    split
    · exact .bind (fieldFilter_plans t _ _) fun _ hfirst =>
        .bind (nestedFilters_plans ts scope) fun _ hrest =>
          .pure (List.forall_mem_cons.mpr ⟨hfirst, hrest⟩)
    · exact nestedFilters_plans ts scope

end

theorem selectFilter_plans (relations : Relations) (argument : FieldTree) :
    Plans (fun found => found.1.expr.Unsorted) (p.selectFilter relations argument) := by
  unfold selectFilter
  split
  · exact .bind (p.fieldFilter_plans argument _ _) fun _ h => .pure h
  · exact .bind (.lift _) fun _ _ => .bind (p.fieldFilter_plans argument _ _) fun _ h => .pure h

theorem selectFilters_plans (relations : Relations) (arguments : List FieldTree) :
    Plans (fun found => ∀ filter ∈ found.1, filter.expr.Unsorted)
      (p.selectFilters relations arguments) := by
  induction arguments generalizing relations with
  | nil => exact .pure nofun
  | cons argument rest ih =>
    exact .bind (p.selectFilter_plans relations argument) fun _ hfirst =>
      .bind (ih _) fun _ hrest => .pure (List.forall_mem_cons.mpr ⟨hfirst, hrest⟩)

end Filters

section Orderings

variable {p}

theorem orderAction_unsorted {relations : Relations} {field : Field} {action : Action}
    (h : p.orderAction relations field = .ok (some action)) : action.Unsorted := by
  have hcolumn : ∀ aliasName name, (Expr.columnOf aliasName name).Unsorted :=
    fun _ _ => Expr.unsorted_of_nil (Expr.collect_columnOf _ _)
  cases asksOrder h with
  | column _ hexpr =>
    obtain ⟨_, _, _, _, _, rfl⟩ := orderColumn_inv hexpr
    exact hcolumn _ _
  | direction => exact hcolumn _ _
  | dynamic => trivial

/-- Orderings are planned as holes. -/
theorem orderItems_plans (relations : Relations) (fields : List Field) :
    Plans (fun items => orderItemsCollect .orderings () items = []) (p.orderItems relations fields) := by
  induction fields with
  | nil => exact .pure rfl
  | cons field rest ih =>
    intro d items d' hd hrun
    rcases orderItems_cons hrun with ⟨_, hrest⟩ | ⟨_, hole, between, others, hfound, hhole, hothers, rfl⟩
    · exact ih d items d' hd hrest
    · obtain ⟨hbetween, _⟩ := plans_rule _ (orderAction_unsorted hfound) d hole between hd hhole
      exact ih between others d' hbetween hothers

theorem pageBound_plans (argument : Option Field) :
    Plans (fun bound => optionalCollect .orderings () bound = []) (pageBound argument) := by
  cases argument with
  | none => exact .pure rfl
  | some field =>
    refine .bind (plans_param _ _) fun name _ => .pure ?_
    simp

end Orderings

section Queries

variable {p} {relations : Relations} {filters : List Filter} {d d' : Draft}
  {P : List OrderItem → Prop}

/-- The full output has the queries of its FROM clause, and unordered ones in its filters. -/
theorem forall_orderings_outputQuery {source : Source} (hnil : P [])
    (hfilters : ∀ filter ∈ filters, filter.expr.Unsorted)
    (hsource : ∀ items ∈ sourceCollect .orderings () (some source), P items) :
    ∀ items ∈ (p.outputQuery relations filters source).collect .orderings (), P items := by
  rw [outputQuery, Query.forall_orderings_foldl_restrict]
  simp only [mem_collect_projectAll]
  rw [Query.forall_orderings_reading hnil]
  exact ⟨hsource, fun filter hfilter items hitems => hfilters filter hfilter items hitems ▸ hnil⟩

theorem keyQuery_unsorted (hfilters : ∀ filter ∈ filters, filter.expr.Unsorted) :
    Unsorted ((p.keyQuery relations filters).collect .orderings ()) := by
  intro items hitems
  rcases p.mem_collect_windowFilters hitems with hown | hkeys | ⟨filter, hfilter, hin⟩
  · exact List.mem_singleton.mp hown
  · rw [mem_collect_projectKey, Query.collect_reading, collect_fromClause] at hkeys
    exact List.mem_singleton.mp hkeys
  · exact hfilters filter hfilter items hin

theorem countQuery_unsorted (hfilters : ∀ filter ∈ filters, filter.expr.Unsorted) :
    Unsorted ((p.countQuery relations filters).collect .orderings ()) := by
  have hcounted : Unsorted ((p.countedQuery relations filters).collect .orderings ()) := by
    have hbase : Unsorted (Query.collect .orderings ()
        (.reading (p.fromClause relations fun _ => true))) := by
      rw [Query.unsorted_reading, collect_fromClause]
      exact .nil
    rw [countedQuery, Unsorted, Query.forall_orderings_foldl_restrict]
    refine ⟨?_, hfilters⟩
    split
    · simp only [mem_collect_projectKey, Query.collect_distinct]
      exact hbase
    · rw [Query.forall_orderings_project]
      exact ⟨hbase, by simp⟩
  rw [countQuery_eq, Query.unsorted_project, Query.unsorted_reading, Source.collect_of,
    Factor.collect]
  exact ⟨hcounted, by simp⟩

/-- What a select is sorted by if its orderings are these: the root key comes last in a page. -/
def sortedItems (p : Planner) (relations : Relations) (order : List OrderItem) : List OrderItem :=
  if p.outputKind = .count then []
  else order ++ if p.arguments.isPaged then p.keyTerms relations.root.aliasName else []

/-- Orderings that a page completes leave no queries open. -/
theorem orderings_sorted {order : List OrderItem} (horder : orderItemsCollect .orderings () order = []) :
    orderItemsCollect .orderings () (order ++ p.keyTerms relations.root.aliasName) = [] := by
  rw [orderItemsCollect_append, horder, collect_keyTerms, List.append_nil]

theorem bounds_outputQuery (p : Planner) (relations : Relations) (filters : List Filter)
    (source : Source) :
    optionalCollect .orderings () (p.outputQuery relations filters source).offset = [] ∧
      optionalCollect .orderings () (p.outputQuery relations filters source).fetch = [] := by
  obtain ⟨filter, hquery⟩ := p.outputQuery_eq relations filters source
  rw [hquery]
  exact ⟨rfl, rfl⟩

/-- The page of keys and the output that is joined to it are sorted alike. -/
theorem pageOutput_sortedBy {order : List OrderItem} {offset fetch : Option Expr}
    (hfilters : ∀ filter ∈ filters, filter.expr.Unsorted)
    (horder : orderItemsCollect .orderings () order = [])
    (hoffset : optionalCollect .orderings () offset = [])
    (hfetch : optionalCollect .orderings () fetch = []) :
    (p.pageOutput relations filters order offset fetch).SortedBy
      (order ++ p.keyTerms relations.root.aliasName) := by
  refine ⟨rfl, ?_⟩
  have hterms : orderItemsCollect .orderings () (order ++ p.keyTerms relations.root.aliasName) = [] :=
    orderings_sorted horder
  obtain ⟨hskipped, htaken⟩ := p.bounds_outputQuery relations (outerFilters relations filters)
    (p.frame relations (p.keyPage relations filters order offset fetch))
  refine Query.forall_orderings_ordered hterms hskipped htaken ?_ (Or.inr rfl)
  refine forall_orderings_outputQuery (Or.inl rfl)
    (fun filter hfilter => hfilters filter (List.mem_of_mem_filter hfilter)) ?_
  have hsource : sourceCollect .orderings () (some (p.frame relations
      (p.keyPage relations filters order offset fetch))) =
        (p.keyPage relations filters order offset fetch).collect .orderings () := by
    rw [frame, collect_joinAll, Source.collect_join, Source.collect_of, Factor.collect]
    simp
  rw [hsource]
  exact Query.forall_orderings_ordered hterms hoffset hfetch
    (fun list hlist => Or.inl (keyQuery_unsorted hfilters list hlist)) (Or.inr rfl)

theorem wholeOutput_sortedBy {order : List OrderItem} {offset fetch : Option Expr}
    (hfilters : ∀ filter ∈ filters, filter.expr.Unsorted)
    (horder : orderItemsCollect .orderings () order = [])
    (hoffset : optionalCollect .orderings () offset = [])
    (hfetch : optionalCollect .orderings () fetch = []) :
    ({ p.wholeOutput relations filters order with offset, fetch } : Query).SortedBy order := by
  have hwithin : ∀ list ∈ (p.outputQuery relations filters
      (p.fromClause relations fun _ => true)).collect .orderings (), list = [] ∨ list = order := by
    refine forall_orderings_outputQuery (Or.inl rfl) hfilters ?_
    rw [collect_fromClause]
    exact nofun
  have hlists := Query.forall_orderings_ordered horder hoffset hfetch hwithin (Or.inr rfl)
  exact ⟨rfl, hlists⟩

/-- A select is sorted by its orderings and, in a page, by the root key. -/
theorem select_sortedBy {query : Query}
    (hrun : p.select.run default = .ok ((query, relations), d')) :
    ∃ order between after, (p.orderItems relations p.arguments.orderBy).run between =
        .ok (order, after) ∧ d'.rules = after.rules ∧ d'.Unsorted ∧
      query.SortedBy (p.sortedItems relations order) := by
  obtain ⟨start, filters, joined, order, between, after, _, hfilters, _, horder, hquery⟩ :=
    p.select_inv hrun
  have hnone : Draft.Unsorted default := nofun
  obtain ⟨hbetween, hunsorted⟩ := p.selectFilters_plans _ _ _ _ _ hnone hfilters
  obtain ⟨hafter, hitems⟩ := orderItems_plans _ _ _ _ _ hbetween horder
  refine ⟨order, between, after, horder, ?_⟩
  rcases hquery with ⟨hcount, _, rfl, rfl⟩ | ⟨hcount, hpaged, _, hwindow⟩ | ⟨hcount, _, hplain⟩
  · rw [sortedItems, if_pos hcount]
    exact ⟨rfl, hafter, rfl, fun list hlist => Or.inl (countQuery_unsorted hunsorted list hlist)⟩
  · obtain ⟨_, offset, fetch, middle, hoffset, hfetch, rfl⟩ := keyWindow_inv hwindow
    obtain ⟨hmiddle, hskipped⟩ := pageBound_plans _ _ _ _ hafter hoffset
    obtain ⟨hlast, htaken⟩ := pageBound_plans _ _ _ _ hmiddle hfetch
    rw [sortedItems, if_neg hcount, hpaged, if_pos rfl]
    exact ⟨((pageBound_paged hfetch).1.rules).trans (pageBound_paged hoffset).1.rules, hlast,
      pageOutput_sortedBy hunsorted hitems hskipped htaken⟩
  · rw [sortedItems, if_neg hcount]
    rcases plainQuery_cases hplain with ⟨hpaged, hpage⟩ | ⟨hpaged, rfl, rfl⟩
    · simp only [page, run_bind_ok, run_pure_ok] at hpage
      obtain ⟨offset, middle, hoffset, fetch, _, hfetch, rfl, rfl⟩ := hpage
      obtain ⟨hmiddle, hskipped⟩ := pageBound_plans _ _ _ _ hafter hoffset
      obtain ⟨hlast, htaken⟩ := pageBound_plans _ _ _ _ hmiddle hfetch
      rw [if_pos hpaged]
      exact ⟨((pageBound_paged hfetch).1.rules).trans (pageBound_paged hoffset).1.rules, hlast,
        wholeOutput_sortedBy hunsorted (orderings_sorted hitems) hskipped htaken⟩
    · rw [hpaged, if_neg Bool.false_ne_true, List.append_nil]
      have hwhole : (p.wholeOutput relations filters order).SortedBy order := by
        rw [wholeOutput_eq]
        exact wholeOutput_sortedBy hunsorted hitems rfl rfl
      exact ⟨rfl, hafter, hwhole⟩

end Queries

end Planner

end ShapeSql
