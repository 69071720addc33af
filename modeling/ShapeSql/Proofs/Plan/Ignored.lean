import ShapeSql.Proofs.Plan.WindowKeys
import ShapeSql.Proofs.Plan.Basic
import ShapeSql.Proofs.Sql.Pruned

namespace ShapeSql

open Sql Planning

variable {d d' : Draft}

section Rules

/-- The rule fills its hole with `1 = 1` where its value is absent. -/
def Action.LeftOut (ignore : Ignore) : Action → Prop
  | .guard other _ => other = ignore
  | .predicate p => p.ignore = some ignore
  | _ => False

theorem HoleRule.fill_leftOut {s : Schema} {rule : HoleRule} {ignore : Ignore} {value : Value}
    {f : Filling} (h : rule.action.LeftOut ignore) (habsent : ignore.covers value = true)
    (hfill : rule.fill s value = .ok f) : f.fragment = .expr .tautology := by
  obtain ⟨hole, path, action⟩ := rule
  cases action with
  | guard other expr =>
    cases h
    cases hfill
    rw [habsent, if_pos rfl]
    rfl
  | predicate p =>
    cases hfill
    have hignored : isIgnored p.ignore value = true := by
      rw [show p.ignore = some ignore from h]
      exact habsent
    rw [Predicate.fill, if_pos hignored]
    rfl
  | order _ | dynamicOrder _ _ | assign _ _ _ | rows _ | keyMatch _ _ => exact h.elim

/-- The condition is always true, or a hole that is left out where the value at the path is absent. -/
def Ignorable (d : Draft) (path : Path) (ignore : Ignore) (e : Expr) : Prop :=
  e = .tautology ∨ ∃ rule ∈ d.rules, e = .hole rule.hole ∧ rule.path = path ∧
    rule.action.LeftOut ignore

theorem Ignorable.later {path : Path} {ignore : Ignore} {e : Expr} (h : Ignorable d path ignore e)
    {marked : List (Place × Path)} (hext : d.Extends marked d') : Ignorable d' path ignore e := by
  rcases h with htrue | ⟨rule, hrule, hrest⟩
  · exact Or.inl htrue
  · obtain ⟨more, hrules, _⟩ := hext.rules
    exact Or.inr ⟨rule, hrules ▸ List.mem_append_left _ hrule, hrest⟩

theorem mem_rules_of_rule {path : Path} {action : Action} {hole : HoleId}
    (hrun : (Planning.rule path action).run d = .ok (hole, d')) :
    ⟨hole, path, action⟩ ∈ d'.rules := by
  cases hrun
  exact List.mem_append_right _ (List.mem_singleton.mpr rfl)

end Rules

namespace Planner

variable {p : Planner}

section Arguments

theorem guarded_ignorable {path : Path} {ignore : Ignore} {expr e : Expr}
    (hrun : (guarded path (some ignore) expr).run d = .ok (e, d')) :
    Ignorable d' path ignore e := by
  simp only [guarded, run_bind_ok, run_pure_ok] at hrun
  obtain ⟨hole, after, hhole, rfl, rfl⟩ := hrun
  exact Or.inr ⟨_, mem_rules_of_rule hhole, rfl, rfl, rfl⟩

theorem predicate_ignorable {column e : Expr} {field : Field} {ignore : Ignore}
    (hrun : (predicate column field (some ignore)).run d = .ok (e, d')) :
    Ignorable d' field.path ignore e := by
  simp only [predicate, run_bind_ok, run_pure_ok] at hrun
  obtain ⟨name, between, _, hole, after, hhole, rfl, rfl⟩ := hrun
  exact Or.inr ⟨_, mem_rules_of_rule hhole, rfl, rfl, rfl⟩

/-- Whatever kind of condition a field comes to, it is left out where the field may be ignored and its
value is absent. -/
theorem fieldFilter_ignorable {t : FieldTree} {scope : Scope} {ignore : Ignore} {e : Expr}
    (hrun : (p.fieldFilter scope (some ignore) t).run d = .ok (e, d')) :
    Ignorable d' t.label.path ignore e := by
  obtain ⟨field, kids⟩ := t
  cases translates_of_fieldFilter hrun with
  | via _ _ hguard => exact guarded_ignorable hguard
  | column _ _ _ hpredicate => exact predicate_ignorable hpredicate
  | cyclic => exact Or.inl rfl
  | here _ _ _ _ hguard => exact guarded_ignorable hguard
  | linked _ _ _ _ _ _ _ hguard => exact guarded_ignorable hguard

/-- The condition of an argument that may be ignored is left out where its value is absent. -/
def LeavesOut (d : Draft) (argument : FieldTree) (e : Expr) : Prop :=
  ∀ ignore, argument.label.directives.ignore = some ignore →
    Ignorable d argument.label.path ignore e

theorem selectFilter_leavesOut {relations after : Relations} {argument : FieldTree}
    {filter : Filter} (hrun : (p.selectFilter relations argument).run d = .ok ((filter, after), d')) :
    LeavesOut d' argument filter.expr := by
  intro ignore hignore
  rcases selectFilter_cases hrun with ⟨_, _, _, hexpr⟩ | ⟨_, _, _, _, _, hexpr⟩
  · rw [hignore] at hexpr
    exact fieldFilter_ignorable hexpr
  · rw [hignore] at hexpr
    exact fieldFilter_ignorable hexpr

/-- Only a filter by a relation names one. -/
theorem selectFilters_target {relations after : Relations} {arguments : List FieldTree}
    {filters : List Filter}
    (hrun : (p.selectFilters relations arguments).run d = .ok ((filters, after), d')) :
    List.Forall₂ (fun argument filter => argument.label.directives.join = none →
      filter.target = none) arguments filters := by
  induction arguments generalizing d relations filters with
  | nil =>
    simp only [selectFilters, run_pure_ok, Prod.mk.injEq] at hrun
    obtain ⟨⟨rfl, rfl⟩, rfl⟩ := hrun
    exact .nil
  | cons argument rest ih =>
    obtain ⟨first, middle, between, others, hfirst, hrest, rfl⟩ := selectFilters_cons hrun
    refine .cons ?_ (ih hrest)
    intro hnone
    rcases selectFilter_cases hfirst with ⟨_, _, htarget, _⟩ | ⟨join, _, hjoin, _⟩
    · exact htarget
    · rw [hnone] at hjoin
      cases hjoin

theorem selectFilters_leavesOut {relations after : Relations} {arguments : List FieldTree}
    {filters : List Filter} (hd : d.Sound)
    (hrun : (p.selectFilters relations arguments).run d = .ok ((filters, after), d')) :
    List.Forall₂ (fun argument filter => LeavesOut d' argument filter.expr) arguments filters := by
  induction arguments generalizing d relations filters with
  | nil =>
    simp only [selectFilters, run_pure_ok, Prod.mk.injEq] at hrun
    obtain ⟨⟨rfl, rfl⟩, rfl⟩ := hrun
    exact .nil
  | cons argument rest ih =>
    obtain ⟨first, middle, between, others, hfirst, hrest, rfl⟩ := selectFilters_cons hrun
    have hsound := (p.selectFilter_extends hd hfirst).1.sound
    have hext := (p.selectFilters_extends hsound hrest).1
    refine .cons ?_ (ih hsound hrest)
    exact fun ignore hignore => (selectFilter_leavesOut hfirst ignore hignore).later hext

theorem rootFilter_leavesOut {argument : FieldTree} {e : Expr}
    (hrun : (p.rootFilter argument).run d = .ok (e, d')) : LeavesOut d' argument e := by
  intro ignore hignore
  unfold rootFilter at hrun
  split at hrun
  · rw [run_throw_ok] at hrun
    exact hrun.elim
  · rw [plainFilter, hignore] at hrun
    exact fieldFilter_ignorable hrun

theorem rootFilters_leavesOut {arguments : List FieldTree} {es : List Expr} (hd : d.Sound)
    (hrun : (arguments.mapM p.rootFilter).run d = .ok (es, d')) :
    List.Forall₂ (LeavesOut d') arguments es := by
  induction arguments generalizing d es with
  | nil =>
    rw [List.mapM_nil, run_pure_ok] at hrun
    rw [← hrun.1]
    exact .nil
  | cons argument rest ih =>
    rw [List.mapM_cons] at hrun
    simp only [run_bind_ok, run_pure_ok] at hrun
    obtain ⟨first, between, hfirst, others, after, hrest, rfl, rfl⟩ := hrun
    have hsound := (p.rootFilter_extends hd hfirst).1.sound
    have hext := (p.rootFilters_extends hsound hrest).1
    refine .cons ?_ (ih hsound hrest)
    exact fun ignore hignore => (rootFilter_leavesOut hfirst ignore hignore).later hext

end Arguments

section Queries

variable {relations : Relations} {filters : List Filter} {f : HoleFiller} {k : Nat}

/-- Leaving out an element that contributes nothing leaves a collection as it is. -/
theorem flatMap_eraseIdx {α β : Type} {items : List α} {g : α → List β}
    (h : ∀ a, items[k]? = some a → g a = []) : (items.eraseIdx k).flatMap g = items.flatMap g := by
  induction items generalizing k with
  | nil => rfl
  | cons a items ih =>
    cases k with
    | zero =>
      have hnone : g a = [] := h a rfl
      rw [List.eraseIdx_cons_zero, List.flatMap_cons, hnone, List.nil_append]
    | succ k => rw [List.eraseIdx_cons_succ, List.flatMap_cons, List.flatMap_cons, ih h]

/-- Restricting a query by all conditions, or by all but one that asks for nothing. -/
theorem exists_filters_eraseIdx {α : Type} {condition : α → Expr} {items : List α}
    (h : ∀ a, items[k]? = some a → (condition a).asked f = []) (q : Query) :
    ∃ filter other,
      items.foldl (fun q a => q.restrict (condition a)) q = { q with filter := filter } ∧
      (items.eraseIdx k).foldl (fun q a => q.restrict (condition a)) q = { q with filter := other } ∧
      askedWhere f other = askedWhere f filter := by
  obtain ⟨filter, hall⟩ := Query.foldl_restrict_eq condition items q
  obtain ⟨other, hothers⟩ := Query.foldl_restrict_eq condition (items.eraseIdx k) q
  refine ⟨filter, other, hall, hothers, ?_⟩
  have hfilter := Query.asked_foldl (f := f) condition items q
  have hother := Query.asked_foldl (f := f) condition (items.eraseIdx k) q
  rw [hall] at hfilter
  rw [hothers, flatMap_eraseIdx h] at hother
  exact hother.trans hfilter.symm

/-- Queries over row sources that are pruned alike are pruned alike. -/
theorem pruned_filled_of_source (q : Query) {s s' : Option Source}
    (h : sourcePruned (sourceFilled f s) = sourcePruned (sourceFilled f s')) :
    (Query.filled f { q with source := s }).pruned = (Query.filled f { q with source := s' }).pruned := by
  obtain ⟨distinct, projection, _, filter, groupBy, orderBy, offset, fetch⟩ := q
  rw [Query.filled, Query.filled, Query.pruned, Query.pruned, h]

theorem pruned_filled_derived {q q' : Query} (h : (q.filled f).pruned = (q'.filled f).pruned)
    (aliasName : String) (joins : List Join) :
    sourcePruned (sourceFilled f (some ⟨.derived q aliasName, joins⟩)) =
      sourcePruned (sourceFilled f (some ⟨.derived q' aliasName, joins⟩)) := by
  rw [sourceFilled, sourceFilled, sourcePruned, sourcePruned, Factor.filled, Factor.filled,
    Factor.pruned, Factor.pruned, h]

/-- The number of roots, without one condition that asks for nothing. -/
theorem countQuery_without (h : ∀ filter, filters[k]? = some filter → filter.expr.asked f = []) :
    ((p.countQuery relations (filters.eraseIdx k)).filled f).pruned =
      ((p.countQuery relations filters).filled f).pruned := by
  let base := Query.reading (p.fromClause relations fun _ => true)
  let counted := if p.table.hasKey then
      p.projectKey { base with distinct := true } relations.root.aliasName
    else base.project (.int 1) (some "__one")
  obtain ⟨filter, other, hall, hothers, hasked⟩ := exists_filters_eraseIdx h counted
  have hinner := Query.pruned_filled_of_asked counted hasked
  rw [← hall, ← hothers] at hinner
  exact pruned_filled_of_source
    { (Query.reading (.of (.derived counted "__count"))).project .countAll none with }
    (pruned_filled_derived hinner "__count" [])

/-- The full output, without one condition that asks for nothing. -/
theorem plainQuery_without {order : List OrderItem} {query : Query}
    (h : ∀ filter, filters[k]? = some filter → filter.expr.asked f = [])
    (hrun : (p.plainQuery relations filters order).run d = .ok (query, d')) :
    ∃ other, (p.plainQuery relations (filters.eraseIdx k) order).run d = .ok (other, d') ∧
      (other.filled f).pruned = (query.filled f).pruned := by
  let base := p.projectAll (Query.reading (p.fromClause relations fun _ => true)) relations
  obtain ⟨filter, other, hall, hothers, hasked⟩ := exists_filters_eraseIdx h base
  unfold plainQuery at hrun ⊢
  simp only at hrun ⊢
  rw [hall] at hrun
  rw [hothers]
  split at hrun
  · rename_i hpaged
    obtain ⟨offset, fetch, rfl, hpage⟩ := page_inv hrun
    let paged : Query :=
      { base with orderBy := order ++ p.keyTerms relations.root.aliasName, offset, fetch }
    refine ⟨{ paged with filter := other }, ?_, Query.pruned_filled_of_asked paged hasked⟩
    rw [if_pos hpaged]
    exact hpage { base with filter := other, orderBy := order }
  · rename_i hplain
    rw [run_pure_ok] at hrun
    obtain ⟨rfl, rfl⟩ := hrun
    let ordered : Query := { base with orderBy := order }
    refine ⟨{ ordered with filter := other }, ?_, Query.pruned_filled_of_asked ordered hasked⟩
    rw [if_neg hplain]
    rfl

theorem foldl_restrict_source {α : Type} (condition : α → Expr) (items : List α) (q : Query)
    (s : Option Source) :
    items.foldl (fun q a => q.restrict (condition a)) { q with source := s } =
      { items.foldl (fun q a => q.restrict (condition a)) q with source := s } := by
  induction items generalizing q with
  | nil => rfl
  | cons a items ih =>
    rw [List.foldl_cons, List.foldl_cons, ← ih]
    rfl

/-- The full output differs in its FROM clause only when it reads another one. -/
theorem outputQuery_source (p : Planner) (relations : Relations) (filters : List Filter)
    (source other : Source) : p.outputQuery relations filters source =
      { p.outputQuery relations filters other with source := some source } := by
  rw [outputQuery, outputQuery, projectAll_eq, projectAll_eq]
  exact foldl_restrict_source Filter.expr filters
    { Query.reading other with projection := p.outputColumns relations } (some source)

/-- Outside of a window only what is on collections is repeated. -/
theorem outerFilters_without
    (hone : ∀ filter, filters[k]? = some filter → OnCollection relations filter = false) :
    outerFilters relations (filters.eraseIdx k) = outerFilters relations filters := by
  have hrepeated : ∀ items : List Filter, outerFilters relations items =
      items.flatMap fun filter => if OnCollection relations filter then [filter] else [] := by
    intro items
    induction items with
    | nil => rfl
    | cons filter items ih =>
      rw [List.flatMap_cons, ← ih, outerFilters, List.filter_cons]
      show (if OnCollection relations filter then _ else _) = _
      split
      · rfl
      · rfl
  rw [hrepeated, hrepeated]
  apply flatMap_eraseIdx
  intro filter hfilter
  rw [hone filter hfilter]
  rfl

/-- In a window what is on no collection stands for itself. -/
theorem windowCondition_toOne {filter : Filter} (hone : OnCollection relations filter = false) :
    p.windowCondition relations filter = filter.expr := by
  unfold OnCollection at hone
  unfold windowCondition
  cases htarget : filter.target with
  | none => rfl
  | some id =>
    rw [htarget, Option.any_some, Bool.not_eq_false'] at hone
    exact if_pos hone

/-- What is read outside of a window says the same when the window does. -/
theorem outputQuery_pruned {order : List OrderItem} {window other : Query}
    (h : (other.filled f).pruned = (window.filled f).pruned) :
    (Query.filled f { p.outputQuery relations filters (p.frame relations other) with
      orderBy := order }).pruned =
        (Query.filled f { p.outputQuery relations filters (p.frame relations window) with
          orderBy := order }).pruned := by
  obtain ⟨joins, hframe⟩ := p.frame_eq relations
  let outer : Query :=
    { p.outputQuery relations filters (p.frame relations window) with orderBy := order }
  have hsource : ∀ q : Query, { p.outputQuery relations filters (p.frame relations q) with
      orderBy := order } = { outer with source := some (p.frame relations q) } := by
    intro q
    rw [p.outputQuery_source relations filters (p.frame relations q) (p.frame relations window)]
  rw [hsource other, hsource window, hframe, hframe]
  exact pruned_filled_of_source outer (pruned_filled_derived h p.windowAlias joins)

/-- A window, without one condition that asks for nothing and is not put into an `EXISTS`. -/
theorem keyWindow_without {order : List OrderItem} {query : Query}
    (h : ∀ filter, filters[k]? = some filter → filter.expr.asked f = [])
    (hone : ∀ filter, filters[k]? = some filter → OnCollection relations filter = false)
    (hrun : (p.keyWindow relations filters order).run d = .ok (query, d')) :
    ∃ other, (p.keyWindow relations (filters.eraseIdx k) order).run d = .ok (other, d') ∧
      (other.filled f).pruned = (query.filled f).pruned := by
  let keys := p.projectKey (Query.reading (p.fromClause relations Relations.reachedToOne))
    relations.root.aliasName
  have hwindow : ∀ filter, filters[k]? = some filter →
      (p.windowCondition relations filter).asked f = [] := by
    intro filter hfilter
    rw [windowCondition_toOne (hone filter hfilter)]
    exact h filter hfilter
  obtain ⟨filter, other, hall, hothers, hasked⟩ := exists_filters_eraseIdx hwindow keys
  rw [← foldl_windowFilter] at hall hothers
  unfold keyWindow at hrun ⊢
  split at hrun
  · simp only [run_bind_ok, run_throw_ok, false_and, exists_false] at hrun
  · rename_i hkey
    simp only [run_bind_ok, run_pure_ok] at hrun
    obtain ⟨window, between, hpage, rfl, rfl⟩ := hrun
    obtain ⟨offset, fetch, rfl, hpages⟩ := page_inv hpage
    let window (filter : Option Expr) : Query := { keys with
      filter := filter, orderBy := order ++ p.keyTerms relations.root.aliasName, offset, fetch }
    have hinner : ((window other).filled f).pruned = ((window filter).filled f).pruned :=
      Query.pruned_filled_of_asked
        { keys with orderBy := order ++ p.keyTerms relations.root.aliasName, offset, fetch } hasked
    refine ⟨{ p.outputQuery relations (outerFilters relations filters)
      (p.frame relations (window other)) with
        orderBy := order ++ p.keyTerms relations.root.aliasName }, ?_, ?_⟩
    · rw [if_neg hkey]
      simp only [run_bind_ok, run_pure_ok]
      refine ⟨window other, between, ?_, ?_, rfl⟩
      · rw [hothers]
        exact hpages { keys with filter := other, orderBy := order }
      · rw [outerFilters_without hone]
        rfl
    · rw [hall]
      exact outputQuery_pruned hinner

end Queries

section Without

/-- The query of a select over relations: the number of roots that pass the filters, a window, or the
full output. -/
def queryOver (p : Planner) (relations : Relations) (filters : List Filter)
    (order : List OrderItem) : Planning Query :=
  if p.outputKind = .count then
    if p.arguments.isPaged then throw (.badAttribute .pagedCount)
    else pure (p.countQuery relations filters)
  else if p.arguments.isPaged && relations.hasJoins then p.keyWindow relations filters order
  else p.plainQuery relations filters order

/-- Plans a select whose query does without the condition of the filter argument at place `k`. -/
def selectWithout (p : Planner) (k : Nat) : Planning (Query × Relations) := do
  let start ← p.outputRelations
  let (filters, joined) ← p.selectFilters start p.arguments.filters
  let relations := joined.anchorKeys p.schema
  let order ← p.orderItems relations p.arguments.orderBy
  let query ← p.queryOver relations (filters.eraseIdx k) order
  return (query, relations)

/-- Plans an update by SET arguments that does without the condition of the filter argument at place
`k`. -/
def updateWithout (p : Planner) (k : Nat) : Planning Batch := do
  let assignments ← p.arguments.set.mapM p.setAssignment
  let filters ← p.arguments.filters.mapM p.rootFilter
  return p.updateTarget assignments (filters.eraseIdx k)

/-- Plans a delete by filters that does without the condition of the filter argument at place `k`. -/
def deleteWithout (p : Planner) (k : Nat) : Planning Batch := do
  let filters ← p.arguments.filters.mapM p.rootFilter
  return [.delete (.table p.table.name none) (Expr.allOf? (filters.eraseIdx k))]

/-- The statement restricts rows by its filter arguments, and not by an entity that it is given. -/
def Filters (p : Planner) : Prop :=
  p.operation = .select ∨ p.operation = .update ∧ p.arguments.set ≠ [] ∨
    p.operation = .delete ∧ p.deletedEntity = .ok none

/-- Plans a statement that does without the condition of the filter argument at place `k`. -/
def statementsWithout (p : Planner) (k : Nat) : Planning (Batch × Option Relations) :=
  match p.operation with
  | .select => do
    let (query, relations) ← p.selectWithout k
    return ([.query query], some relations)
  | .update => do
    let batch ← p.updateWithout k
    return (batch, none)
  | .delete => do
    let batch ← p.deleteWithout k
    return (batch, none)
  | _ => Plan.statements p

variable {f : HoleFiller} {k : Nat} {argument : FieldTree}

theorem selectWithout_pruned {query : Query} {relations : Relations} (hd : d.Sound)
    (hk : p.arguments.filters[k]? = some argument)
    (habsent : ∀ e, LeavesOut d' argument e → e.asked f = [])
    (hone : p.arguments.isPaged = true → ∀ start filters joined between,
      p.outputRelations = .ok start →
      (p.selectFilters start p.arguments.filters).run d = .ok ((filters, joined), between) →
        ∀ filter, filters[k]? = some filter →
          OnCollection (joined.anchorKeys p.schema) filter = false)
    (hrun : p.select.run d = .ok ((query, relations), d')) :
    ∃ other, (p.selectWithout k).run d = .ok ((other, relations), d') ∧
      (other.filled f).pruned = (query.filled f).pruned := by
  obtain ⟨start, filters, joined, order, between, after, hstart, hfilters, rfl, horder, hquery⟩ :=
    p.select_inv hrun
  have hnone : ∀ filter, filters[k]? = some filter → filter.expr.asked f = [] := by
    intro filter hfilter
    have hhead := p.selectFilters_extends hd hfilters
    have hsorted := p.orderItems_extends hhead.1.sound horder
    obtain ⟨_, _, _, _, _, _, hstart', hfilters', horder', hlast, _⟩ := p.select_cases hd hrun
    rw [hstart] at hstart'
    cases hstart'
    rw [hfilters] at hfilters'
    cases hfilters'
    rw [horder] at horder'
    cases horder'
    obtain ⟨other, hother, hleaves⟩ := getElem?_of_forall₂ (selectFilters_leavesOut hd hfilters) hk
    rw [hfilter] at hother
    cases hother
    apply habsent
    intro ignore hignore
    exact ((hleaves ignore hignore).later hsorted.1).later hlast
  have hplanned : ∀ other, (p.queryOver (joined.anchorKeys p.schema) (filters.eraseIdx k) order).run
      after = .ok (other, d') →
        (p.selectWithout k).run d = .ok ((other, joined.anchorKeys p.schema), d') := by
    intro other hother
    simp only [selectWithout, run_bind_ok, run_lift_ok, run_pure_ok]
    exact ⟨start, d, ⟨hstart, rfl⟩, (filters, joined), between, hfilters, order, after, horder, other,
      d', hother, rfl, rfl⟩
  rcases hquery with ⟨hcount, hplain, rfl, rfl⟩ | ⟨hcount, hpaged, hjoins, hwindow⟩ |
    ⟨hcount, hplain, hquery⟩
  · refine ⟨_, hplanned (p.countQuery _ (filters.eraseIdx k)) ?_, countQuery_without hnone⟩
    rw [queryOver, if_pos hcount, if_neg (Bool.eq_false_iff.mp hplain)]
    rfl
  · obtain ⟨other, hother, hpruned⟩ := keyWindow_without hnone
      (hone hpaged start filters joined between hstart hfilters) hwindow
    refine ⟨other, hplanned other ?_, hpruned⟩
    rw [queryOver, if_neg hcount, if_pos (Bool.and_eq_true_iff.mpr ⟨hpaged, hjoins⟩)]
    exact hother
  · obtain ⟨other, hother, hpruned⟩ := plainQuery_without hnone hquery
    refine ⟨other, hplanned other ?_, hpruned⟩
    rw [queryOver, if_neg hcount, if_neg (Bool.eq_false_iff.mp hplain)]
    exact hother

/-- Conditions that ask for the same make the same WHERE clause. -/
theorem prunedWhere_without {es : List Expr} (h : ∀ e, es[k]? = some e → e.asked f = []) :
    prunedWhere (optionalPruned (optionalFilled f (Expr.allOf? (es.eraseIdx k)))) =
      prunedWhere (optionalPruned (optionalFilled f (Expr.allOf? es))) := by
  rw [prunedWhere_filled, prunedWhere_filled, Expr.asked_allOf?, Expr.asked_allOf?,
    flatMap_eraseIdx h]

theorem rootFilters_asked {es : List Expr} (hd : d.Sound) (hk : p.arguments.filters[k]? = some argument)
    (habsent : ∀ e, LeavesOut d' argument e → e.asked f = [])
    (hrun : (p.arguments.filters.mapM p.rootFilter).run d = .ok (es, d')) :
    ∀ e, es[k]? = some e → e.asked f = [] := by
  intro e he
  obtain ⟨other, hother, hleaves⟩ := getElem?_of_forall₂ (rootFilters_leavesOut hd hrun) hk
  rw [he] at hother
  cases hother
  exact habsent e hleaves

/-- A statement does the same, once it is pruned, without the condition of an argument that is left out,
unless a window puts it into an `EXISTS`. -/
theorem statementsWithout_pruned {batch : Batch} {relations : Option Relations}
    (hk : p.arguments.filters[k]? = some argument) (hfilters : p.Filters)
    (habsent : ∀ e, LeavesOut d' argument e → e.asked f = [])
    (hone : p.arguments.isPaged = true → ∀ start filters joined between,
      p.outputRelations = .ok start →
      (p.selectFilters start p.arguments.filters).run default = .ok ((filters, joined), between) →
        ∀ filter, filters[k]? = some filter →
          OnCollection (joined.anchorKeys p.schema) filter = false)
    (hrun : (Plan.statements p).run default = .ok ((batch, relations), d')) :
    ∃ other : Batch, (p.statementsWithout k).run default = .ok ((other, relations), d') ∧
      Batch.pruned (other.map (Statement.filled f)) =
        Batch.pruned (batch.map (Statement.filled f)) := by
  unfold statementsWithout
  rcases hfilters with hselect | ⟨hupdate, hset⟩ | ⟨hdelete, hentity⟩
  · obtain ⟨query, found, hquery, rfl, rfl⟩ := select_of_statements hrun hselect
    rw [hselect]
    simp only [run_bind_ok, run_pure_ok, Prod.mk.injEq]
    obtain ⟨other, hother, hpruned⟩ := selectWithout_pruned Draft.sound_default hk habsent hone hquery
    refine ⟨[.query other], ⟨(other, found), _, hother, ⟨rfl, rfl⟩, rfl⟩, ?_⟩
    exact congrArg (fun q => [Statement.query q]) hpruned
  · obtain ⟨hchange, rfl⟩ := update_of_statements hrun hupdate
    have hbatch := updateBySet_of_update hchange hset
    rw [hupdate]
    simp only [updateBySet, updateWithout, run_bind_ok, run_pure_ok, Prod.mk.injEq] at hbatch ⊢
    obtain ⟨assignments, between, hassignments, es, last, hes, rfl, rfl⟩ := hbatch
    have hassigned := (p.setAssignments_extends Draft.sound_default hassignments).1
    refine ⟨p.updateTarget assignments (es.eraseIdx k), ⟨_, last,
      ⟨assignments, between, hassignments, es, last, hes, rfl, rfl⟩, ⟨rfl, trivial⟩, rfl⟩, ?_⟩
    have hwhere := prunedWhere_without (rootFilters_asked hassigned.sound hk habsent hes)
    exact congrArg (fun filter => [Statement.update
      ⟨p.table.name, assignmentsFilled f assignments, none, filter⟩]) hwhere
  · obtain ⟨hbatch, rfl⟩ := delete_of_statements hrun hdelete
    rw [hdelete]
    simp only [delete, deleteWithout, run_bind_ok, run_lift_ok, run_pure_ok, Prod.mk.injEq] at hbatch ⊢
    obtain ⟨found, _, ⟨hfound, rfl⟩, hrest⟩ := hbatch
    rw [hentity] at hfound
    cases hfound
    simp only [run_bind_ok, run_pure_ok] at hrest
    obtain ⟨es, last, hes, _, _, ⟨rfl, rfl⟩, rfl, rfl⟩ := hrest
    refine ⟨[.delete (.table p.table.name none) (Expr.allOf? (es.eraseIdx k))], ⟨_, last,
      ⟨es, last, hes, rfl, rfl⟩, ⟨rfl, trivial⟩, rfl⟩, ?_⟩
    have hwhere := prunedWhere_without (rootFilters_asked Draft.sound_default hk habsent hes)
    exact congrArg (fun filter => [Statement.delete (.table p.table.name none) filter]) hwhere

end Without

end Planner

end ShapeSql
