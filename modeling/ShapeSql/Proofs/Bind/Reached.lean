import ShapeSql.Proofs.Bind.Prefix
import ShapeSql.Proofs.Bind.Stranded
import ShapeSql.Proofs.Plan.Ignored

namespace ShapeSql

open Sql Planning

namespace Planner

/-- The filter strands no parameter at these arguments. -/
def Clean (args : Value) (argument : FieldTree) : Prop :=
  FieldTree.strands args argument.label.directives.ignore argument = false

/-- A single entity supplies a column that is no key, and that the database numbers. -/
def SuppliesNumbered (p : Planner) : Prop :=
  p.operation = .update ∧ p.arguments.set = [] ∧
    ∃ entity tree, p.entity = .ok entity ∧ entity.label.isList = false ∧
      p.writtenTree entity = .ok tree ∧
      ∃ c ∈ tree.label.columns, c.source.isSome = true ∧ c.column.primaryKey = false ∧
        c.column.autoIncrement = true

/-- A parameter may be left behind: by a filter of the statement, or by an entity. -/
def LeavesBehind (p : Planner) (args : Value) : Prop :=
  (p.Filters ∧ ∃ argument ∈ p.arguments.filters, ¬Clean args argument) ∨ p.SuppliesNumbered

end Planner

namespace Planning

variable {s : Schema} {args : Value} {subs : Substitution} {d d' between : Draft}

/-- What a rule that is recorded wants is reached from its hole. -/
theorem rule_reaches {path : Path} {action : Action} {hole : HoleId}
    (hrules : between.rules = d.rules)
    (hparams : ∀ q ∈ between.params, q ∈ d.params ∨ action.param? = some q.name)
    (hrun : (rule path action).run between = .ok (hole, d'))
    (hserved : ∀ rule ∈ d'.rules, rule.Served s args subs) (place : Place) :
    d.Adds s args (Reaches subs [.hole place hole]) d' :=
  (rule_adds hrules hparams hrun hserved).mono fun _ hname =>
    ⟨_, List.mem_singleton.mpr rfl, hname.2 place⟩

/-- A parameter that is declared without a rule is reached where it stands. -/
theorem param_reaches {path : Path} {transform : Transform} {name : String}
    (hrun : (param path transform).run d = .ok (name, d')) {leaves : List Leaf}
    (hleaf : .param name ∈ leaves) : d.Adds s args (Reaches subs leaves) d' := by
  have hrules := rules_of_param hrun
  refine ⟨fun rule hrule => hrules ▸ hrule, fun rule hrule => Or.inl (hrules ▸ hrule), ?_⟩
  intro q hq
  rcases param_news hrun q hq with hold | hsame
  · exact Or.inl hold
  · rw [hsame]
    exact Or.inr (Or.inr ⟨_, hleaf, .param⟩)

/-- What planning each item reaches is reached from all of them. -/
theorem mapM_reaches {α β : Type} {f : α → Planning β} {leaves : β → List Leaf} {items : List α}
    (hstep : ∀ a ∈ items, ∀ (d d' : Draft) b, (f a).run d = .ok (b, d') →
      (∀ rule ∈ d'.rules, rule.Served s args subs) → d.Adds s args (Reaches subs (leaves b)) d')
    {results : List β} (hrun : (items.mapM f).run d = .ok (results, d'))
    (hserved : ∀ rule ∈ d'.rules, rule.Served s args subs) :
    d.Adds s args (Reaches subs (results.flatMap leaves)) d' := by
  induction items generalizing d results with
  | nil =>
    rw [List.mapM_nil, run_pure_ok] at hrun
    rw [← hrun.2]
    exact (Draft.Keeps.refl d).adds
  | cons a items ih =>
    rw [List.mapM_cons] at hrun
    simp only [run_bind_ok, run_pure_ok] at hrun
    obtain ⟨b, between, hb, bs, after, hbs, rfl, rfl⟩ := hrun
    rw [List.forall_mem_cons] at hstep
    have htail := ih hstep.2 hbs
    have hhead := hstep.1 d between b hb (htail.served hserved)
    rw [List.flatMap_cons]
    refine (hhead.mono fun name h => ?_).trans (htail.mono fun name h => ?_)
    · exact h.mono fun l hl => List.mem_append_left _ hl
    · exact h.mono fun l hl => List.mem_append_right _ hl

theorem singleName_keeps {base name : String} (hrun : (singleName base).run d = .ok (name, d')) :
    d.Keeps d' := by
  cases hrun
  exact ⟨rfl, rfl⟩

theorem singleNames_keep {α : Type} {base : α → String} {items : List α} {names : List String}
    (hrun : (items.mapM fun a => singleName (base a)).run d = .ok (names, d')) : d.Keeps d' := by
  induction items generalizing d names with
  | nil =>
    rw [List.mapM_nil, run_pure_ok] at hrun
    rw [hrun.2]
    exact .refl d'
  | cons a items ih =>
    rw [List.mapM_cons] at hrun
    simp only [run_bind_ok, run_pure_ok] at hrun
    obtain ⟨name, between, hname, others, after, hothers, rfl, rfl⟩ := hrun
    exact (singleName_keeps hname).trans (ih hothers)

end Planning

namespace Planner

variable {p : Planner} {s : Schema} {args : Value} {subs : Substitution} {d d' : Draft}

section Queries

theorem mem_unordered_project (q : Query) (e : Expr) (aliasName : Option String) (l : Leaf) :
    l ∈ unordered (q.project e aliasName) ↔ l ∈ unordered q ∨ l ∈ e.collect .leaves () :=
  Query.mem_collect_project { q with orderBy := [], offset := none, fetch := none } e aliasName

theorem mem_unordered_restrict (q : Query) (condition : Expr) (l : Leaf) :
    l ∈ unordered (q.restrict condition) ↔ l ∈ unordered q ∨ l ∈ condition.collect .leaves () :=
  Query.mem_collect_restrict { q with orderBy := [], offset := none, fetch := none } condition

/-- A fold whose steps add no leaves adds none. -/
theorem mem_foldl_step {α β : Type} (leaves : β → List Leaf) (step : β → α → β)
    (hstep : ∀ b a l, l ∈ leaves (step b a) ↔ l ∈ leaves b) (items : List α) (b : β) (l : Leaf) :
    l ∈ leaves (items.foldl step b) ↔ l ∈ leaves b := by
  induction items generalizing b with
  | nil => rfl
  | cons a items ih => rw [List.foldl_cons, ih, hstep]

theorem mem_unordered_projectAll (query : Query) (relations : Relations) (l : Leaf) :
    l ∈ unordered (p.projectAll query relations) ↔ l ∈ unordered query := by
  apply mem_foldl_step unordered
  intro query r l
  apply mem_foldl_step unordered
  intro query c l
  rw [mem_unordered_project]
  simp

theorem mem_leaves_of_unordered {query : Query} {l : Leaf} (h : l ∈ unordered query) :
    l ∈ query.collect .leaves () := (mem_leaves_query query l).mpr (Or.inl h)

/-- Filters that each add the leaves of their own condition add those of all. -/
theorem mem_unordered_filtered {step : Query → Filter → Query}
    (hstep : ∀ query filter l, l ∈ unordered query ∨ l ∈ filter.expr.collect .leaves () →
      l ∈ unordered (step query filter))
    {filters : List Filter} {query : Query} {l : Leaf}
    (h : l ∈ unordered query ∨ ∃ filter ∈ filters, l ∈ filter.expr.collect .leaves ()) :
    l ∈ unordered (filters.foldl step query) := by
  induction filters generalizing query with
  | nil =>
    rcases h with hquery | ⟨filter, hfilter, _⟩
    · exact hquery
    · cases hfilter
  | cons filter rest ih =>
    apply ih
    rcases h with hquery | ⟨other, hother, hl⟩
    · exact Or.inl (hstep query filter l (Or.inl hquery))
    · rcases List.mem_cons.mp hother with rfl | hrest
      · exact Or.inl (hstep query other l (Or.inr hl))
      · exact Or.inr ⟨other, hrest, hl⟩

theorem mem_unordered_restrictAll {filters : List Filter} {query : Query} {l : Leaf}
    (h : l ∈ unordered query ∨ ∃ filter ∈ filters, l ∈ filter.expr.collect .leaves ()) :
    l ∈ unordered (filters.foldl (fun query filter => query.restrict filter.expr) query) :=
  mem_unordered_filtered (fun _ _ _ => (mem_unordered_restrict _ _ _).mpr) h

theorem mem_existsAlong {relations : Relations} {id : Nat} {condition : Expr} {l : Leaf}
    (h : l ∈ condition.collect .leaves ()) :
    l ∈ (p.existsAlong relations id condition).collect .leaves () := by
  unfold existsAlong
  simp only
  split
  · exact h
  · rw [Expr.collect, Query.mem_collect_restrict]
    exact Or.inr h

theorem mem_unordered_windowFilters {relations : Relations} {filters : List Filter} {query : Query}
    {l : Leaf} (h : ∃ filter ∈ filters, l ∈ filter.expr.collect .leaves ()) :
    l ∈ unordered (filters.foldl (p.windowFilter relations) query) := by
  refine mem_unordered_filtered ?_ (Or.inr h)
  intro query filter l hl
  unfold windowFilter
  split
  · split
    · exact (mem_unordered_restrict _ _ _).mpr hl
    · exact (mem_unordered_restrict _ _ _).mpr (hl.imp_right mem_existsAlong)
  · exact (mem_unordered_restrict _ _ _).mpr hl

theorem mem_countQuery {relations : Relations} {filters : List Filter} {l : Leaf}
    (h : ∃ filter ∈ filters, l ∈ filter.expr.collect .leaves ()) :
    l ∈ (p.countQuery relations filters).collect .leaves () := by
  rw [countQuery, Query.mem_collect_project, Query.collect_reading, Source.collect_of, Factor.collect]
  exact Or.inl (mem_leaves_of_unordered (mem_unordered_restrictAll (Or.inr h)))

/-- The parameter of a page stands in its place, and no rule has to do with it. -/
theorem pageBound_reaches {argument : Option Field} {bound : Option Expr}
    (hrun : (pageBound argument).run d = .ok (bound, d')) :
    d.Adds s args (Reaches subs (optionalCollect .leaves () bound)) d' := by
  cases argument with
  | none =>
    simp only [pageBound, run_pure_ok] at hrun
    rw [← hrun.2]
    exact (Draft.Keeps.refl d).adds
  | some field =>
    simp only [pageBound, run_bind_ok, run_pure_ok] at hrun
    obtain ⟨name, between, hparam, rfl, rfl⟩ := hrun
    apply param_reaches hparam
    rw [optionalCollect, Expr.collect]
    exact List.mem_singleton.mpr rfl

/-- Both parameters of a page are reached from a query with these bounds. -/
theorem pageBounds_reach {between : Draft} {offset fetch : Option Expr} {query : Query}
    (hoffset : (pageBound p.arguments.offset).run d = .ok (offset, between))
    (hfetch : (pageBound p.arguments.fetch).run between = .ok (fetch, d'))
    (hskips : query.offset = offset) (htakes : query.fetch = fetch) :
    d.Adds s args (Reaches subs (query.collect .leaves ())) d' := by
  have hfirst : d.Adds s args (Reaches subs (query.collect .leaves ())) between :=
    (pageBound_reaches hoffset).mono fun name h => h.mono fun l hl =>
      (mem_leaves_query query l).mpr (Or.inr (Or.inr (Or.inl (hskips ▸ hl))))
  have hsecond : between.Adds s args (Reaches subs (query.collect .leaves ())) d' :=
    (pageBound_reaches hfetch).mono fun name h => h.mono fun l hl =>
      (mem_leaves_query query l).mpr (Or.inr (Or.inr (Or.inr (htakes ▸ hl))))
  exact hfirst.trans hsecond

/-- The window is the row source that all else of the page is joined to. -/
theorem mem_pageOutput {relations : Relations} {filters : List Filter} {order : List OrderItem}
    {offset fetch : Option Expr} {l : Leaf}
    (h : l ∈ (p.keyPage relations filters order offset fetch).collect .leaves ()) :
    l ∈ (p.pageOutput relations filters order offset fetch).collect .leaves () := by
  obtain ⟨joins, hframe⟩ := p.frame_eq relations
  apply mem_leaves_of_unordered
  show l ∈ unordered (p.outputQuery relations (outerFilters relations filters)
    (p.frame relations (p.keyPage relations filters order offset fetch)))
  refine mem_unordered_restrictAll (Or.inl ?_)
  rw [mem_unordered_projectAll]
  show l ∈ (Query.reading _).collect .leaves ()
  rw [Query.collect_reading, hframe, Source.collect_eq, Source.partsCollect, Factor.collect]
  exact List.mem_append_right _ (List.mem_append_right _ (List.mem_append_left _ h))

/-- A window asks all filters for the keys, and is cut to the page. -/
theorem keyWindow_reaches {relations : Relations} {filters : List Filter} {order : List OrderItem}
    {query : Query} (hrun : (p.keyWindow relations filters order).run d = .ok (query, d')) :
    (∀ l, (∃ filter ∈ filters, l ∈ filter.expr.collect .leaves ()) → l ∈ query.collect .leaves ()) ∧
      d.Adds s args (Reaches subs (query.collect .leaves ())) d' := by
  obtain ⟨_, offset, fetch, between, hoffset, hfetch, rfl⟩ := keyWindow_inv hrun
  constructor
  · intro l hl
    apply mem_pageOutput
    apply mem_leaves_of_unordered
    show l ∈ unordered (p.keyQuery relations filters)
    exact mem_unordered_windowFilters hl
  · have hpage : d.Adds s args
        (Reaches subs ((p.keyPage relations filters order offset fetch).collect .leaves ())) d' :=
      pageBounds_reach hoffset hfetch rfl rfl
    exact hpage.mono fun name h => h.mono fun l hl => mem_pageOutput hl

theorem plainQuery_reaches {relations : Relations} {filters : List Filter} {order : List OrderItem}
    {query : Query} (hrun : (p.plainQuery relations filters order).run d = .ok (query, d')) :
    (∀ l, (∃ filter ∈ filters, l ∈ filter.expr.collect .leaves ()) → l ∈ query.collect .leaves ()) ∧
      d.Adds s args (Reaches subs (query.collect .leaves ())) d' := by
  have hfilters : ∀ l, (∃ filter ∈ filters, l ∈ filter.expr.collect .leaves ()) →
      l ∈ unordered (filters.foldl
        (fun (query : Query) (filter : Filter) => query.restrict filter.expr)
        (p.projectAll (Query.reading (p.fromClause relations fun _ => true)) relations)) :=
    fun l hl => mem_unordered_restrictAll (Or.inr hl)
  rcases plainQuery_cases hrun with ⟨_, hpage⟩ | ⟨_, rfl, rfl⟩
  · simp only [page, run_bind_ok, run_pure_ok] at hpage
    obtain ⟨offset, between, hoffset, fetch, after, hfetch, rfl, rfl⟩ := hpage
    refine ⟨fun l hl => mem_leaves_of_unordered (hfilters l hl), ?_⟩
    exact pageBounds_reach hoffset hfetch rfl rfl
  · exact ⟨fun l hl => mem_leaves_of_unordered (hfilters l hl), (Draft.Keeps.refl _).adds⟩

end Queries

section Selects

theorem selectFilter_reaches {relations after : Relations} {argument : FieldTree} {filter : Filter}
    (hclean : Clean args argument)
    (hrun : (p.selectFilter relations argument).run d = .ok ((filter, after), d'))
    (hserved : ∀ rule ∈ d'.rules, rule.Served s args subs) :
    d.Adds s args (Reaches subs (filter.expr.collect .leaves ())) d' := by
  rcases selectFilter_cases hrun with ⟨_, _, _, hexpr⟩ | ⟨_, _, _, _, _, hexpr⟩
  · exact (p.fieldFilter_adds argument _ _ hexpr hserved).mono fun name h => h.2 hclean
  · exact (p.fieldFilter_adds argument _ _ hexpr hserved).mono fun name h => h.2 hclean

theorem selectFilters_reach {relations after : Relations} {arguments : List FieldTree}
    {filters : List Filter} (hclean : ∀ argument ∈ arguments, Clean args argument)
    (hrun : (p.selectFilters relations arguments).run d = .ok ((filters, after), d'))
    (hserved : ∀ rule ∈ d'.rules, rule.Served s args subs) :
    d.Adds s args (Reaches subs (filters.flatMap fun filter => filter.expr.collect .leaves ())) d' := by
  induction arguments generalizing d relations filters with
  | nil =>
    simp only [selectFilters, run_pure_ok, Prod.mk.injEq] at hrun
    rw [← hrun.2]
    exact (Draft.Keeps.refl d).adds
  | cons argument rest ih =>
    obtain ⟨first, middle, between, others, hfirst, hrest, rfl⟩ := selectFilters_cons hrun
    rw [List.forall_mem_cons] at hclean
    have htail := ih hclean.2 hrest
    have hhead := selectFilter_reaches hclean.1 hfirst (htail.served hserved)
    rw [List.flatMap_cons]
    refine (hhead.mono fun name h => ?_).trans (htail.mono fun name h => ?_)
    · exact h.mono fun l hl => List.mem_append_left _ hl
    · exact h.mono fun l hl => List.mem_append_right _ hl

/-- Orderings want nothing. -/
theorem orderItems_add {relations : Relations} {fields : List Field} {items : List OrderItem}
    (hrun : (p.orderItems relations fields).run d = .ok (items, d'))
    (hserved : ∀ rule ∈ d'.rules, rule.Served s args subs) (names : String → Prop) :
    d.Adds s args names d' := by
  induction fields generalizing d items with
  | nil =>
    simp only [orderItems, run_pure_ok] at hrun
    rw [← hrun.2]
    exact (Draft.Keeps.refl d).adds
  | cons field rest ih =>
    rcases orderItems_cons hrun with ⟨_, hrest⟩ | ⟨action, hole, between, others, hfound, hhole, hothers, rfl⟩
    · exact ih hrest
    · obtain ⟨_, hplace⟩ := p.orderAction_admits hfound d
      have htail := ih hothers
      refine ((rule_adds rfl (fun q hq => Or.inl hq) hhole (htail.served hserved)).mono ?_).trans htail
      rintro name ⟨⟨f, hf, hwants⟩, _⟩
      have hparam : action.param? = none := by
        cases action with
        | order _ | dynamicOrder _ _ => rfl
        | predicate _ | guard _ _ | assign _ _ _ | rows _ | keyMatch _ _ => cases hplace
      exact (Filling.not_wants (Binding.fill_ordering hplace hf).1 hparam name hwants).elim

theorem select_reaches {query : Query} {relations : Relations}
    (hclean : ∀ argument ∈ p.arguments.filters, Clean args argument)
    (hrun : p.select.run d = .ok ((query, relations), d'))
    (hserved : ∀ rule ∈ d'.rules, rule.Served s args subs) :
    d.Adds s args (Reaches subs (query.collect .leaves ())) d' := by
  obtain ⟨start, filters, joined, order, between, after, _, hfilters, _, horder, hquery⟩ :=
    p.select_inv hrun
  have hlast : (∀ l, (∃ filter ∈ filters, l ∈ filter.expr.collect .leaves ()) →
      l ∈ query.collect .leaves ()) ∧
      after.Adds s args (Reaches subs (query.collect .leaves ())) d' := by
    rcases hquery with ⟨_, _, rfl, rfl⟩ | ⟨_, _, _, hwindow⟩ | ⟨_, _, hplain⟩
    · exact ⟨fun l hl => mem_countQuery hl, (Draft.Keeps.refl d').adds⟩
    · exact keyWindow_reaches hwindow
    · exact plainQuery_reaches hplain
  have hsorted := orderItems_add horder (hlast.2.served hserved)
    (Reaches subs (query.collect .leaves ()))
  have hfiltered := selectFilters_reach hclean hfilters
    (hsorted.served (hlast.2.served hserved))
  refine ((hfiltered.mono fun name h => h.mono fun l hl => ?_).trans hsorted).trans hlast.2
  exact hlast.1 l (List.mem_flatMap.mp hl)

end Selects

section Changes

theorem setAssignment_reaches {field : Field} {a : Assignment}
    (hrun : (p.setAssignment field).run d = .ok (a, d'))
    (hserved : ∀ rule ∈ d'.rules, rule.Served s args subs) :
    d.Adds s args (Reaches subs (a.collect .leaves ())) d' := by
  unfold setAssignment at hrun
  split at hrun
  · simp only [run_bind_ok, run_throw_ok, false_and, exists_false] at hrun
  · simp only [run_bind_ok, run_lift_ok, run_pure_ok] at hrun
    obtain ⟨column, _, ⟨_, rfl⟩, name, between, hname, hole, after, hhole, rfl, rfl⟩ := hrun
    have hparams : ∀ q ∈ between.params, q ∈ d.params ∨
        (Action.assign column.name name field.directives.ignore).param? = some q.name :=
      fun q hq => (param_news hname q hq).imp_right fun hsame => congrArg some hsame.symm
    exact rule_reaches (rules_of_param hname) hparams hhole hserved .assignments

theorem rootFilter_reaches {argument : FieldTree} {e : Expr} (hclean : Clean args argument)
    (hrun : (p.rootFilter argument).run d = .ok (e, d'))
    (hserved : ∀ rule ∈ d'.rules, rule.Served s args subs) :
    d.Adds s args (Reaches subs (e.collect .leaves ())) d' := by
  unfold rootFilter at hrun
  split at hrun
  · rw [run_throw_ok] at hrun
    exact hrun.elim
  · exact (p.fieldFilter_adds argument _ _ hrun hserved).mono fun name h => h.2 hclean

theorem rootFilters_reach {es : List Expr}
    (hclean : ∀ argument ∈ p.arguments.filters, Clean args argument)
    (hrun : (p.arguments.filters.mapM p.rootFilter).run d = .ok (es, d'))
    (hserved : ∀ rule ∈ d'.rules, rule.Served s args subs) :
    d.Adds s args (Reaches subs (es.flatMap (Expr.collect .leaves ()))) d' :=
  mapM_reaches (fun argument hargument _ _ _ hrun hserved =>
    rootFilter_reaches (hclean argument hargument) hrun hserved) hrun hserved

theorem updateBySet_reaches {batch : Batch}
    (hclean : ∀ argument ∈ p.arguments.filters, Clean args argument)
    (hrun : p.updateBySet.run d = .ok (batch, d'))
    (hserved : ∀ rule ∈ d'.rules, rule.Served s args subs) :
    d.Adds s args (Reaches subs batch.leaves) d' := by
  simp only [updateBySet, run_bind_ok, run_pure_ok] at hrun
  obtain ⟨assignments, between, hassignments, filters, after, hfilters, rfl, rfl⟩ := hrun
  have hfiltered := rootFilters_reach hclean hfilters hserved
  have hassigned : d.Adds s args
      (Reaches subs (assignments.flatMap (Assignment.collect .leaves ()))) between :=
    mapM_reaches (fun _ _ _ _ _ hrun hserved => setAssignment_reaches hrun hserved) hassignments
      (hfiltered.served hserved)
  rw [leaves_updateTarget]
  refine (hassigned.mono fun name h => ?_).trans (hfiltered.mono fun name h => ?_)
  · exact h.mono fun l hl => List.mem_append_left _ hl
  · exact h.mono fun l hl => List.mem_append_right _ hl

/-- The columns of a single entity have their parameters, but for those that are passed over. -/
theorem entityColumns_reach {entity : Path} {columns : List WrittenColumn}
    {assignments : List Assignment} {filters : List Expr}
    (hnone : ∀ c ∈ columns, c.source.isSome = true → c.column.primaryKey = false →
      c.column.autoIncrement = false)
    (hrun : (p.entityColumns entity columns).run d = .ok ((assignments, filters), d')) :
    d.Adds s args
      (Reaches subs (assignments.flatMap (Assignment.collect .leaves ()) ++
        filters.flatMap (Expr.collect .leaves ()))) d' := by
  induction columns generalizing d d' assignments filters with
  | nil =>
    simp only [entityColumns, run_pure_ok] at hrun
    rw [← hrun.2]
    exact (Draft.Keeps.refl d).adds
  | cons written rest ih =>
    obtain ⟨column, source⟩ := written
    rw [List.forall_mem_cons] at hnone
    cases source with
    | none => exact ih hnone.2 hrun
    | some source =>
      simp only [entityColumns, run_bind_ok] at hrun
      obtain ⟨name, between, hname, ⟨others, conditions⟩, after, hothers, hlast⟩ := hrun
      have htail := ih hnone.2 hothers
      split at hlast
      · simp only [run_pure_ok, Prod.mk.injEq] at hlast
        obtain ⟨⟨rfl, rfl⟩, rfl⟩ := hlast
        refine (param_reaches hname ?_).trans (htail.mono fun name h => h.mono fun l hl => ?_)
        · simp [Expr.collect]
        · rw [List.flatMap_cons]
          rcases List.mem_append.mp hl with hassign | hcondition
          · exact List.mem_append_left _ hassign
          · exact List.mem_append_right _ (List.mem_append_right _ hcondition)
      · rename_i hkey
        have hassigned := hnone.1 rfl (Bool.eq_false_iff.mpr hkey)
        rw [if_neg (Bool.eq_false_iff.mp hassigned)] at hlast
        simp only [run_pure_ok, Prod.mk.injEq] at hlast
        obtain ⟨⟨rfl, rfl⟩, rfl⟩ := hlast
        refine (param_reaches hname ?_).trans (htail.mono fun name h => h.mono fun l hl => ?_)
        · simp [Assignment.collect, Expr.collect]
        · rw [List.flatMap_cons, List.append_assoc]
          exact List.mem_append_right _ hl

/-- Rows are bound to the hole of the insert that fills a table variable. -/
theorem fillLookup_reaches {t : WrittenTable} {entity : Path} {st : Statement}
    (hrun : (fillLookup t entity).run d = .ok (st, d'))
    (hserved : ∀ rule ∈ d'.rules, rule.Served s args subs) :
    d.Adds s args (Reaches subs (st.collect .leaves ())) d' := by
  obtain ⟨base, between, hbase, hole, hhole, rfl⟩ := fillLookup_inv hrun
  obtain ⟨hrules, hparams⟩ := baseName_keeps hbase
  exact rule_reaches hrules (fun q hq => Or.inl (hparams ▸ hq)) hhole hserved .rows

theorem updateByEntity_reaches {batch : Batch} (hoperation : p.operation = .update)
    (hset : p.arguments.set = []) (hnone : ¬p.SuppliesNumbered)
    (hrun : p.updateByEntity.run d = .ok (batch, d'))
    (hserved : ∀ rule ∈ d'.rules, rule.Served s args subs) :
    d.Adds s args (Reaches subs batch.leaves) d' := by
  obtain ⟨entity, tree, hentity, htree, _, ⟨fill, update, _, hfill, _, rfl⟩ |
    ⟨assignments, filters, hsingle, hcolumns, _, rfl⟩⟩ := p.updateByEntity_cases hrun
  · refine (fillLookup_reaches hfill hserved).mono fun name h => h.mono fun l hl => ?_
    exact List.mem_flatMap.mpr ⟨fill, by simp, hl⟩
  · rw [leaves_updateTarget]
    refine entityColumns_reach ?_ hcolumns
    intro c hc hsource hkey
    rw [Bool.eq_false_iff]
    intro hnumbered
    exact hnone ⟨hoperation, hset, entity, tree, hentity, hsingle, htree, c,
      List.mem_of_mem_filter hc, hsource, hkey, hnumbered⟩

theorem update_reaches {batch : Batch} (hoperation : p.operation = .update)
    (hclean : ¬p.LeavesBehind args) (hrun : p.update.run d = .ok (batch, d'))
    (hserved : ∀ rule ∈ d'.rules, rule.Served s args subs) :
    d.Adds s args (Reaches subs batch.leaves) d' := by
  rw [LeavesBehind, not_or] at hclean
  rcases update_cases hrun with ⟨hset, hrun⟩ | ⟨hset, hrun⟩
  · exact updateByEntity_reaches hoperation hset hclean.2 hrun hserved
  · refine updateBySet_reaches (fun argument hargument => ?_) hrun hserved
    by_contra hstrands
    exact hclean.1 ⟨Or.inr (Or.inl ⟨hoperation, hset⟩), argument, hargument, hstrands⟩

theorem keyMatch_reaches {entity : FieldTree} {e : Expr}
    (hrun : (p.keyMatch entity).run d = .ok (e, d'))
    (hserved : ∀ rule ∈ d'.rules, rule.Served s args subs) :
    d.Adds s args (Reaches subs (e.collect .leaves ())) d' := by
  simp only [keyMatch, run_bind_ok, run_lift_ok, run_pure_ok] at hrun
  obtain ⟨columns, _, ⟨_, rfl⟩, base, between, hbase, hole, after, hhole, rfl, rfl⟩ := hrun
  obtain ⟨hrules, hparams⟩ := baseName_keeps hbase
  rw [Expr.collect]
  exact rule_reaches hrules (fun q hq => Or.inl (hparams ▸ hq)) hhole hserved .expr

theorem delete_reaches {batch : Batch} (hoperation : p.operation = .delete)
    (hclean : ¬p.LeavesBehind args) (hrun : p.delete.run d = .ok (batch, d'))
    (hserved : ∀ rule ∈ d'.rules, rule.Served s args subs) :
    d.Adds s args (Reaches subs batch.leaves) d' := by
  rw [LeavesBehind, not_or] at hclean
  have hdelete : ∀ filter : Option Expr, Batch.leaves [.delete (.table p.table.name none) filter] =
      optionalCollect .leaves () filter := by
    intro filter
    rw [Batch.leaves, List.flatMap_singleton, Statement.collect, Factor.collect, List.nil_append]
  simp only [delete, run_bind_ok, run_lift_ok] at hrun
  obtain ⟨found, _, ⟨hfound, rfl⟩, hrest⟩ := hrun
  cases found with
  | some entity =>
    simp only [run_bind_ok, run_pure_ok] at hrest
    obtain ⟨condition, between, hcondition, _, _, ⟨rfl, rfl⟩, rfl, rfl⟩ := hrest
    rw [hdelete, optionalCollect]
    exact keyMatch_reaches hcondition hserved
  | none =>
    simp only [run_bind_ok, run_pure_ok] at hrest
    obtain ⟨filters, between, hfilters, _, _, ⟨rfl, rfl⟩, rfl, rfl⟩ := hrest
    rw [hdelete, Expr.optionalCollect_allOf?]
    refine rootFilters_reach (fun argument hargument => ?_) hfilters hserved
    by_contra hstrands
    exact hclean.1 ⟨Or.inr (Or.inr ⟨hoperation, hfound⟩), argument, hargument, hstrands⟩

end Changes

section Writes

theorem rowNames_keeps {t : WrittenTable} {entity : Path} {single : Bool} {fields : List Path}
    {names : RowNames} (hrun : (rowNames t entity single fields).run d = .ok (names, d')) :
    d.Keeps d' := by
  rcases rowNames_cases hrun with ⟨listed, hlisted, _⟩ | ⟨base, hbase, _⟩
  · exact singleNames_keep hlisted
  · exact baseName_keeps hbase

theorem plainInsert_reaches {t : WrittenTable} {entity : Path} {single : Bool} {batch : Batch}
    (hrun : (plainInsert t entity single).run d = .ok (batch, d'))
    (hserved : ∀ rule ∈ d'.rules, rule.Served s args subs) :
    d.Adds s args (Reaches subs batch.leaves) d' := by
  obtain ⟨names, between, hnames, hole, hhole, rfl⟩ := plainInsert_inv hrun
  obtain ⟨hrules, hparams⟩ := rowNames_keeps hnames
  exact rule_reaches hrules (fun q hq => Or.inl (hparams ▸ hq)) hhole hserved .rows

theorem write_reaches {batch : Batch} {relations : Option Relations}
    (hrun : p.write.run d = .ok ((batch, relations), d'))
    (hserved : ∀ rule ∈ d'.rules, rule.Served s args subs) :
    d.Adds s args (Reaches subs batch.leaves) d' := by
  obtain ⟨entity, tree, _, _, ⟨_, hplain⟩ | ⟨filled, returned, hfilled, _, rfl⟩⟩ := p.write_batch hrun
  · exact plainInsert_reaches hplain hserved
  · have hfills : d.Adds s args (Reaches subs (filled.flatMap (Statement.collect .leaves ()))) d' :=
      mapM_reaches (fun _ _ _ _ _ hrun hserved => fillLookup_reaches hrun hserved) hfilled hserved
    refine hfills.mono fun name h => h.mono fun l hl => ?_
    obtain ⟨st, hst, hl⟩ := List.mem_flatMap.mp hl
    exact List.mem_flatMap.mpr ⟨st, by simp [hst], hl⟩

end Writes

/-- Where nothing is left behind, a statement reaches all that its rules want, and all parameters that
come without rules. -/
theorem statements_reach {batch : Batch} {relations : Option Relations}
    (hclean : ¬p.LeavesBehind args)
    (hrun : (Plan.statements p).run d = .ok ((batch, relations), d'))
    (hserved : ∀ rule ∈ d'.rules, rule.Served s args subs) :
    d.Adds s args (Reaches subs batch.leaves) d' := by
  cases stated hrun with
  | select hoperation hquery =>
    rw [Batch.leaves, List.flatMap_singleton]
    refine select_reaches (fun argument hargument => ?_) hquery hserved
    by_contra hstrands
    exact hclean (Or.inl ⟨Or.inl hoperation, argument, hargument, hstrands⟩)
  | write _ hwrite => exact write_reaches hwrite hserved
  | update hoperation hupdate => exact update_reaches hoperation hclean hupdate hserved
  | delete hoperation hdelete => exact delete_reaches hoperation hclean hdelete hserved

end Planner

end ShapeSql
