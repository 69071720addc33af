import ShapeSql.Proofs.Plan.Basic
import ShapeSql.Proofs.Plan.WindowKeys
import ShapeSql.Proofs.Shape.Unpaged

namespace ShapeSql

open Sql Planning

/-- The arguments without those that page. -/
def Arguments.unpaged (a : Arguments) : Arguments := { a with offset := none, fetch := none }

namespace Arguments

/-- A paging argument is sorted in as one, and any other one as it is without a page. -/
theorem add_unpaged {operation : Operation} {a a' : Arguments} {argument : FieldTree}
    (h : add operation a argument = .ok a') :
    (argument.label.directives.pages = true → a'.unpaged = a.unpaged) ∧
      (argument.label.directives.pages = false → add operation a.unpaged argument = .ok a'.unpaged) := by
  unfold add at h ⊢
  simp only at h ⊢
  split at h
  · rename_i hexclude
    cases h
    exact ⟨fun _ => rfl, fun _ => if_pos hexclude⟩
  · rename_i hexclude
    rw [if_neg hexclude]
    split at h
    · rename_i hoffset
      split at h
      · cases h
      · cases h
        refine ⟨fun _ => rfl, ?_⟩
        rw [Directives.pages, hoffset, Bool.true_or]
        exact nofun
    · rename_i hoffset
      rw [if_neg hoffset]
      split at h
      · rename_i hfetch
        split at h
        · cases h
        · cases h
          refine ⟨fun _ => rfl, ?_⟩
          rw [Directives.pages, hfetch, Bool.or_true]
          exact nofun
      · rename_i hfetch
        rw [if_neg hfetch]
        have hplain : argument.label.directives.pages = false := by
          rw [Directives.pages, (Bool.not_eq_true _).mp hoffset, (Bool.not_eq_true _).mp hfetch,
            Bool.or_false]
        rw [hplain]
        refine ⟨nofun, fun _ => ?_⟩
        split at h
        · split at h
          · cases h
          · rename_i horder hdynamic
            cases h
            rw [if_pos horder]
            exact if_neg hdynamic
        · rename_i horder
          rw [if_neg horder]
          split at h
          · rename_i hset
            split at h
            · cases h
            · rename_i hupdate
              cases h
              rw [if_pos hset, if_neg hupdate]
              rfl
          · rename_i hset
            cases h
            rw [if_neg hset]
            rfl

theorem foldlM_unpaged {operation : Operation} {arguments : List FieldTree} {a a' : Arguments}
    (h : arguments.foldlM (add operation) a = .ok a') :
    (arguments.filter fun a => !a.label.directives.pages).foldlM (add operation) a.unpaged =
      .ok a'.unpaged := by
  induction arguments generalizing a with
  | nil =>
    cases h
    rfl
  | cons argument rest ih =>
    rw [List.foldlM_cons] at h
    obtain ⟨between, hbetween, h⟩ := except_bind_ok.mp h
    obtain ⟨hpages, hplain⟩ := add_unpaged hbetween
    cases hpaging : argument.label.directives.pages with
    | true =>
      rw [List.filter_cons_of_neg (by rw [hpaging]; exact Bool.false_ne_true), ← hpages hpaging]
      exact ih h
    | false =>
      rw [List.filter_cons_of_pos (by rw [hpaging]; rfl), List.foldlM_cons]
      exact except_bind_ok.mpr ⟨_, hplain hpaging, ih h⟩

/-- Without its paging arguments a specification has the same other ones. -/
theorem classify_unpaged {operation : Operation} {arguments : List FieldTree} {a : Arguments}
    (h : classify operation arguments = .ok a) :
    classify operation (arguments.filter fun a => !a.label.directives.pages) = .ok a.unpaged := by
  unfold classify at h ⊢
  obtain ⟨sorted, hsorted, h⟩ := except_bind_ok.mp h
  refine except_bind_ok.mpr ⟨_, foldlM_unpaged hsorted, ?_⟩
  split at h
  · cases h
  · rename_i hallowed
    cases h
    rw [if_neg]
    · rfl
    · rintro ⟨hother, hpaged | hordered⟩
      · cases hpaged
      · exact hallowed ⟨hother, .inr hordered⟩

end Arguments

namespace Plan

variable {r : Resolver} {spec : QuerySpec}

/-- No paging argument has the shape of a table. -/
theorem argumentTable_unpaged {arguments : List FieldTree}
    (hpaging : ∀ a ∈ arguments, a.label.directives.pages = true → a.label.type.isInteger = true) :
    argumentTable r (arguments.filter fun a => !a.label.directives.pages) =
      argumentTable r arguments := by
  induction arguments with
  | nil => rfl
  | cons argument rest ih =>
    rw [List.forall_mem_cons] at hpaging
    have hrest := ih hpaging.2
    cases hpages : argument.label.directives.pages with
    | true =>
      have hplain : argument.label.type.shapeName? = none := by
        have hinteger := hpaging.1 hpages
        unfold FieldType.isInteger at hinteger
        split at hinteger
        · rename_i htype
          rw [htype]
          rfl
        · rename_i htype
          rw [htype]
          rfl
        · cases hinteger
      rw [List.filter_cons_of_neg (by rw [hpages]; exact Bool.false_ne_true), hrest]
      conv => rhs; unfold argumentTable
      rw [hplain]
      rfl
    | false =>
      rw [List.filter_cons_of_pos (by rw [hpages]; rfl)]
      unfold argumentTable
      rw [hrest]

theorem targetTable_unpaged (hpaging : spec.PagesByNumber) :
    targetTable r spec.unpaged = targetTable r spec := by
  have hchildren : argumentTable r spec.unpaged.arguments.children =
      argumentTable r spec.arguments.children := argumentTable_unpaged hpaging
  unfold targetTable
  rw [hchildren]
  rfl

end Plan

namespace Planner

variable {p : Planner} {relations : Relations} {d d' : Draft}

/-- The planner of the specification without its paging arguments. -/
def unpaged (p : Planner) : Planner := { p with arguments := p.arguments.unpaged }

section Filters

mutual

theorem fieldFilter_unpaged (p : Planner) : ∀ (t : FieldTree) (scope : Scope)
    (ignore : Option Ignore), p.unpaged.fieldFilter scope ignore t = p.fieldFilter scope ignore t
  | .node field kids, scope, ignore => by
    have hkids : ∀ scope, p.unpaged.nestedFilters scope kids = p.nestedFilters scope kids :=
      nestedFilters_unpaged p kids
    rw [fieldFilter, fieldFilter]
    simp only [hkids]
    rfl

theorem nestedFilters_unpaged (p : Planner) : ∀ (ts : List FieldTree) (scope : Scope),
    p.unpaged.nestedFilters scope ts = p.nestedFilters scope ts
  | [], _ => by rw [nestedFilters, nestedFilters]
  | t :: ts, scope => by
    rw [nestedFilters, nestedFilters, fieldFilter_unpaged p t, nestedFilters_unpaged p ts]

end

theorem selectFilter_unpaged (p : Planner) (relations : Relations) (argument : FieldTree) :
    p.unpaged.selectFilter relations argument = p.selectFilter relations argument := by
  unfold selectFilter plainFilter
  simp only [fieldFilter_unpaged]
  rfl

/-- Filters are planned in the same way without a page. -/
theorem selectFilters_unpaged (p : Planner) (relations : Relations) (arguments : List FieldTree) :
    p.unpaged.selectFilters relations arguments = p.selectFilters relations arguments := by
  induction arguments generalizing relations with
  | nil => rfl
  | cons argument rest ih => simp only [selectFilters, selectFilter_unpaged, ih]

end Filters

section Orderings

theorem columnAt_unpaged {paged : Bool} {path : Path} {column : String} {v : Tree.Visit Relation}
    {e : Expr} (h : p.columnAt paged path column v = .ok e) :
    p.columnAt false path column v = .ok e := by
  obtain ⟨_, found, hfound, rfl⟩ := columnAt_inv h
  unfold columnAt
  rw [hfound]
  rfl

/-- A column that a page may be ordered by orders the whole output as well. -/
theorem orderColumn_unpaged {paged : Bool} {path : Path} {named : Option String} {column : String}
    {e : Expr} (h : p.orderColumn relations paged path named column = .ok e) :
    p.unpaged.orderColumn relations false path named column = .ok e := by
  unfold orderColumn at h ⊢
  split at h
  · exact columnAt_unpaged h
  · split at h
    · rename_i v hnamed
      have hfound : p.unpaged.orderRelation relations _ = some v := hnamed
      rw [hfound]
      exact columnAt_unpaged h
    · cases h

/-- Without a page there is an action where there is one with it, and the same one unless the value of the
field names the columns. -/
theorem orderAction_unpaged {field : Field} {action : Option Action}
    (h : p.orderAction relations field = .ok action) :
    ∃ other, p.unpaged.orderAction relations field = .ok other ∧
      (field.directives.orderBy ≠ some .dynamic → other = action) := by
  unfold orderAction at h ⊢
  simp only at h ⊢
  split at h
  · exact ⟨_, h, fun _ => rfl⟩
  · obtain ⟨expr, hexpr, hpure⟩ := except_bind_ok.mp h
    exact ⟨_, except_bind_ok.mpr ⟨expr, orderColumn_unpaged hexpr, hpure⟩, fun _ => rfl⟩
  · exact ⟨_, h, fun _ => rfl⟩
  · rename_i hdynamic
    exact ⟨_, rfl, fun hnot => absurd hdynamic hnot⟩

/-- Where all actions are the same without a page, the orderings are. -/
theorem orderItems_unpaged {fields : List Field}
    (h : ∀ field ∈ fields, p.unpaged.orderAction relations field = p.orderAction relations field) :
    p.unpaged.orderItems relations fields = p.orderItems relations fields := by
  induction fields with
  | nil => rfl
  | cons field rest ih =>
    rw [List.forall_mem_cons] at h
    simp only [orderItems, h.1, ih h.2]

/-- The second draft has more rules than the first one, for orderings only, and the same parameters. -/
structure OrderedAs (d d' : Draft) : Prop where
  rules : ∃ more, d'.rules = d.rules ++ more ∧ ∀ rule ∈ more, rule.action.place = .order
  params : d'.params = d.params

/-- Planning orderings records rules of their own. -/
theorem orderItems_ordered {fields : List Field} {items : List OrderItem}
    (hrun : (p.orderItems relations fields).run d = .ok (items, d')) :
    OrderedAs d d' ∧ ∀ field ∈ fields, ∃ action, p.orderAction relations field = .ok action := by
  induction fields generalizing d items with
  | nil =>
    simp only [orderItems, run_pure_ok] at hrun
    obtain ⟨rfl, rfl⟩ := hrun
    exact ⟨⟨⟨[], (List.append_nil _).symm, List.forall_mem_nil _⟩, rfl⟩, List.forall_mem_nil _⟩
  | cons field rest ih =>
    rcases orderItems_cons hrun with
        ⟨hfound, hrest⟩ | ⟨action, hole, between, others, hfound, hhole, hothers, rfl⟩
    · obtain ⟨hordered, hmore⟩ := ih hrest
      exact ⟨hordered, List.forall_mem_cons.mpr ⟨⟨_, hfound⟩, hmore⟩⟩
    · obtain ⟨⟨⟨more, hmore, hplaces⟩, hparams⟩, hactions⟩ := ih hothers
      cases hhole
      refine ⟨⟨⟨⟨⟨d.nextHole⟩, field.path, action⟩ :: more, ?_, ?_⟩, hparams⟩, ?_⟩
      · rw [hmore, List.append_assoc]
        rfl
      · exact List.forall_mem_cons.mpr ⟨(p.orderAction_admits hfound d).2, hplaces⟩
      · exact List.forall_mem_cons.mpr ⟨⟨_, hfound⟩, hactions⟩

theorem orderItems_ok {fields : List Field}
    (h : ∀ field ∈ fields, ∃ action, p.orderAction relations field = .ok action) (d : Draft) :
    ∃ items d', (p.orderItems relations fields).run d = .ok (items, d') := by
  induction fields generalizing d with
  | nil => exact ⟨[], d, rfl⟩
  | cons field rest ih =>
    rw [List.forall_mem_cons] at h
    obtain ⟨found, hfound⟩ := h.1
    simp only [orderItems, run_bind_ok, run_lift_ok]
    cases found with
    | none =>
      obtain ⟨items, d', hrest⟩ := ih h.2 d
      exact ⟨items, d', none, d, ⟨hfound, rfl⟩, hrest⟩
    | some action =>
      obtain ⟨items, d', hrest⟩ := ih h.2 _
      exact ⟨_, d', some action, d, ⟨hfound, rfl⟩, run_bind_ok.mpr ⟨_, _, rfl,
        run_bind_ok.mpr ⟨items, d', hrest, rfl⟩⟩⟩

end Orderings

section Bounds

/-- The second draft has the rules of the first one, and parameters for bounds of pages after its own. -/
structure PagedAs (d d' : Draft) : Prop where
  rules : d'.rules = d.rules
  params : ∃ more, d'.params = d.params ++ more ∧ ∀ q ∈ more, q.transform = .required

theorem PagedAs.trans {d'' : Draft} (h : PagedAs d d') (h' : PagedAs d' d'') : PagedAs d d'' := by
  obtain ⟨more, hmore, hfirst⟩ := h.params
  obtain ⟨last, hlast, hsecond⟩ := h'.params
  refine ⟨h'.rules.trans h.rules, more ++ last, ?_, List.forall_mem_append.mpr ⟨hfirst, hsecond⟩⟩
  rw [hlast, hmore, List.append_assoc]

/-- The bound is the parameter of the argument, if there is one. -/
def Bounds (d : Draft) : Option Field → Option Expr → Prop
  | none, bound => bound = none
  | some field, bound => ∃ q ∈ d.params, bound = some (.param q.name) ∧ q.path = field.path ∧
      q.transform = .required

theorem PagedAs.bounds (h : PagedAs d d') {argument : Option Field} {bound : Option Expr}
    (hbound : Bounds d argument bound) : Bounds d' argument bound := by
  cases argument with
  | none => exact hbound
  | some field =>
    obtain ⟨q, hq, hrest⟩ := hbound
    obtain ⟨more, hmore, _⟩ := h.params
    exact ⟨q, hmore ▸ List.mem_append_left _ hq, hrest⟩

theorem pageBound_paged {argument : Option Field} {bound : Option Expr}
    (hrun : (pageBound argument).run d = .ok (bound, d')) :
    PagedAs d d' ∧ Bounds d' argument bound := by
  cases argument with
  | none =>
    simp only [pageBound, run_pure_ok] at hrun
    obtain ⟨rfl, rfl⟩ := hrun
    exact ⟨⟨rfl, [], (List.append_nil _).symm, List.forall_mem_nil _⟩, rfl⟩
  | some field =>
    simp only [pageBound, run_bind_ok, run_pure_ok] at hrun
    obtain ⟨name, between, hparam, rfl, rfl⟩ := hrun
    rcases param_cases hparam with ⟨rfl, q, hq, rfl, hpath, hrequired⟩ | ⟨rfl, rfl⟩
    · exact ⟨⟨rfl, [], (List.append_nil _).symm, List.forall_mem_nil _⟩, q, hq, rfl, hpath, hrequired⟩
    · refine ⟨⟨rfl, _, rfl, ?_⟩, _, List.mem_append_right _ (List.mem_singleton.mpr rfl), rfl, rfl, rfl⟩
      exact List.forall_mem_singleton.mpr rfl

end Bounds

section Selects

variable {filters : List Filter} {query : Query}

/-- The whole output, in an order. -/
def wholeOutput (p : Planner) (relations : Relations) (filters : List Filter)
    (order : List OrderItem) : Query :=
  { p.outputQuery relations filters (p.fromClause relations fun _ => true) with orderBy := order }

/-- A paged select is a window where anything is joined, and the output cut to the page otherwise. -/
theorem select_page (hpaged : p.arguments.isPaged = true)
    (hrun : p.select.run default = .ok ((query, relations), d')) :
    ∃ filters order offset fetch d between, p.Selects filters relations d ∧
      (p.orderItems relations p.arguments.orderBy).run d = .ok (order, between) ∧
      PagedAs between d' ∧ Bounds d' p.arguments.offset offset ∧ Bounds d' p.arguments.fetch fetch ∧
      p.outputKind ≠ .count ∧
      (relations.hasJoins = true ∧ p.table.hasKey = true ∧
          query = p.pageOutput relations filters order offset fetch ∨
        relations.hasJoins = false ∧
          query = { p.wholeOutput relations filters (order ++ p.keyTerms relations.root.aliasName) with
            offset, fetch }) := by
  obtain ⟨start, filters, joined, order, d, between, hstart, hfilters, hrelations, horder, hquery⟩ :=
    p.select_inv hrun
  have hselects : p.Selects filters relations d := ⟨start, joined, hstart, hfilters, hrelations⟩
  have hbounds : ∀ {offset fetch : Option Expr} {middle : Draft},
      (pageBound p.arguments.offset).run between = .ok (offset, middle) →
      (pageBound p.arguments.fetch).run middle = .ok (fetch, d') →
        PagedAs between d' ∧ Bounds d' p.arguments.offset offset ∧
          Bounds d' p.arguments.fetch fetch := by
    intro offset fetch middle hoffset hfetch
    obtain ⟨hfirst, hskipped⟩ := pageBound_paged hoffset
    obtain ⟨hsecond, htaken⟩ := pageBound_paged hfetch
    exact ⟨hfirst.trans hsecond, hsecond.bounds hskipped, htaken⟩
  rcases hquery with ⟨_, hplain, _⟩ | ⟨hcount, _, hjoins, hwindow⟩ | ⟨hcount, hjoins, hplain⟩
  · rw [hpaged] at hplain
    cases hplain
  · obtain ⟨hkey, offset, fetch, middle, hoffset, hfetch, rfl⟩ := keyWindow_inv hwindow
    obtain ⟨hpages, hskipped, htaken⟩ := hbounds hoffset hfetch
    exact ⟨filters, order, offset, fetch, d, between, hselects, horder, hpages, hskipped, htaken,
      hcount, .inl ⟨hjoins, hkey, rfl⟩⟩
  · rw [hpaged, Bool.true_and] at hjoins
    rcases plainQuery_cases hplain with ⟨_, hpage⟩ | ⟨hwhole, _⟩
    · simp only [page, run_bind_ok, run_pure_ok] at hpage
      obtain ⟨offset, middle, hoffset, fetch, _, hfetch, rfl, rfl⟩ := hpage
      obtain ⟨hpages, hskipped, htaken⟩ := hbounds hoffset hfetch
      exact ⟨filters, order, offset, fetch, d, between, hselects, horder, hpages, hskipped, htaken,
        hcount, .inr ⟨hjoins, rfl⟩⟩
    · rw [hpaged] at hwhole
      cases hwhole

/-- What can be paged can be selected as a whole, by the same filters and over the same relations, and
with the same draft up to the page unless a value names the columns of an ordering. -/
theorem select_whole {order : List OrderItem} {between : Draft} (hselects : p.Selects filters relations d)
    (hcount : p.outputKind ≠ .count)
    (horder : (p.orderItems relations p.arguments.orderBy).run d = .ok (order, between)) :
    ∃ others d', p.unpaged.select.run default =
        .ok ((p.wholeOutput relations filters others, relations), d') ∧ OrderedAs d d' ∧
      ((∀ field ∈ p.arguments.orderBy, field.directives.orderBy ≠ some .dynamic) → d' = between) := by
  obtain ⟨start, joined, hstart, hfilters, rfl⟩ := hselects
  obtain ⟨_, hactions⟩ := orderItems_ordered horder
  have hunpaged : ∀ field ∈ p.unpaged.arguments.orderBy,
      ∃ action, p.unpaged.orderAction (joined.anchorKeys p.schema) field = .ok action := by
    intro field hfield
    obtain ⟨action, haction⟩ := hactions field hfield
    obtain ⟨other, hother, _⟩ := orderAction_unpaged haction
    exact ⟨other, hother⟩
  obtain ⟨others, d', hothers⟩ := orderItems_ok hunpaged d
  refine ⟨others, d', ?_, (orderItems_ordered hothers).1, ?_⟩
  · unfold select
    refine run_bind_ok.mpr ⟨start, default, run_lift_ok.mpr ⟨hstart, rfl⟩, ?_⟩
    refine run_bind_ok.mpr ⟨(filters, joined), d, ?_, ?_⟩
    · rw [selectFilters_unpaged]
      exact hfilters
    · refine run_bind_ok.mpr ⟨others, d', hothers, ?_⟩
      have hkind : p.unpaged.outputKind ≠ .count := hcount
      rw [if_neg hkind]
      rfl
  · intro hfixed
    have hsame : p.unpaged.orderItems (joined.anchorKeys p.schema) p.arguments.orderBy =
        p.orderItems (joined.anchorKeys p.schema) p.arguments.orderBy := by
      apply orderItems_unpaged
      intro field hfield
      obtain ⟨action, haction⟩ := hactions field hfield
      obtain ⟨other, hother, hequal⟩ := orderAction_unpaged haction
      rw [hother, haction, hequal (hfixed field hfield)]
    have hruns := hothers
    rw [show p.unpaged.arguments.orderBy = p.arguments.orderBy from rfl, hsame, horder] at hruns
    cases hruns
    rfl

end Selects

section Rows

variable {f : HoleFiller} {w : World} {filters : List Filter} {offset fetch : Option Expr}

theorem rows_wholeOutput (f : HoleFiller) (p : Planner) (w : World) (relations : Relations)
    (filters : List Filter) (order : List OrderItem)
    (hwhole : WholePage w (((p.tableRows w relations.root).flatMap
      (p.outputTuples w relations)).filter (passing f w filters)).length (optionalFilled f offset)
        (optionalFilled f fetch)) :
    (Query.rows w [] (Query.filled f { p.wholeOutput relations filters order with
      offset, fetch })).Perm (p.allRows f w relations filters) := by
  have htuples : sourceTuples w []
      (sourceFilled f (some (p.fromClause relations fun _ => true))) =
        (p.tableRows w relations.root).flatMap (p.outputTuples w relations) :=
    sourceTuples_fromClause f p relations _ w []
  rw [← htuples] at hwhole
  rw [allRows, ← htuples]
  exact p.rows_outputQuery f relations filters _ order hwhole

/-- Where nothing is joined, there is a row of the output for each root at most. -/
theorem length_outputTuples (hjoins : relations.hasJoins = false) (test : Tuple → Bool) :
    (((p.tableRows w relations.root).flatMap (p.outputTuples w relations)).filter test).length ≤
      (p.tableRows w relations.root).length := by
  have hnone : joinedVisits relations (fun _ => true) = [] := by
    rw [joinedVisits, List.filter_eq_nil_iff]
    intro v hv
    rw [Bool.and_true]
    exact List.any_eq_false.mp hjoins v.label (Relations.label_mem_all hv)
  have htuples : (p.tableRows w relations.root).flatMap (p.outputTuples w relations) =
      (p.tableRows w relations.root).map fun row => [(relations.root.aliasName, row)] := by
    rw [List.map_eq_flatMap]
    apply List.flatMap_congr
    intro row _
    rw [outputTuples, hnone]
    rfl
  rw [htuples]
  exact (List.length_filter_le _ _).trans (List.length_map _).le

/-- What is joined to a tuple does not depend on parameters. -/
theorem extensions_under (params : Record) (outer : Env) (kind : JoinKind)
    (vs : List (Tree.Visit Relation)) (t : Tuple) :
    p.extensions (w.under params) outer kind vs t = p.extensions w outer kind vs t := by
  induction vs generalizing t with
  | nil => rfl
  | cons v vs ih =>
    rw [extensions, extensions]
    exact List.flatMap_congr fun row _ => ih _

/-- Parameters matter to the rows of the output as far as they do to the filters. -/
theorem allRows_under {params : Record}
    (hpassing : ∀ t, passing f (w.under params) filters t = passing f w filters t) :
    p.allRows f (w.under params) relations filters = p.allRows f w relations filters := by
  have htuples : p.outputTuples (w.under params) relations = p.outputTuples w relations :=
    funext fun row => extensions_under params _ _ _ _
  have hrow : p.outputRow (w.under params) relations = p.outputRow w relations := by
    funext t
    apply List.map_congr_left
    intro projected hmem
    obtain ⟨r, _, hmem⟩ := List.mem_flatMap.mp hmem
    obtain ⟨column, _, rfl⟩ := List.mem_map.mp hmem
    rfl
  rw [allRows, allRows, htuples, hrow, funext hpassing]
  rfl

/-- The whole output has no bounds. -/
theorem wholeOutput_eq (p : Planner) (relations : Relations) (filters : List Filter)
    (order : List OrderItem) : p.wholeOutput relations filters order =
      { p.wholeOutput relations filters order with offset := none, fetch := none } := by
  obtain ⟨filter, hquery⟩ := p.outputQuery_eq relations filters (p.fromClause relations fun _ => true)
  rw [wholeOutput, hquery]
  rfl

/-- The whole output goes through the tuples of the roots, and keeps what passes the filters. -/
theorem source_wholeOutput (f : HoleFiller) (p : Planner) (w : World) (relations : Relations)
    (filters : List Filter) (order : List OrderItem) :
    sourceTuples w [] ((p.wholeOutput relations filters order).filled f).source =
      (p.tableRows w relations.root).flatMap (p.outputTuples w relations) := by
  obtain ⟨filter, hquery⟩ := p.outputQuery_eq relations filters (p.fromClause relations fun _ => true)
  rw [wholeOutput, hquery, Query.filled]
  exact sourceTuples_fromClause f p relations _ w []

theorem passes_wholeOutput (f : HoleFiller) (p : Planner) (w : World) (relations : Relations)
    (filters : List Filter) (order : List OrderItem) (t : Tuple) :
    ((p.wholeOutput relations filters order).filled f).passes w [] t = passing f w filters t := by
  have hpasses := p.passes_outputQuery (w := w) f relations filters
    (p.fromClause relations fun _ => true) t
  obtain ⟨filter, hquery⟩ := p.outputQuery_eq relations filters (p.fromClause relations fun _ => true)
  rw [hquery, Query.filled] at hpasses
  rw [wholeOutput, hquery, Query.filled]
  exact hpasses

end Rows

end Planner

namespace Plan

variable {r : Resolver} {windowAlias : String} {spec : QuerySpec} {p : Planner}

theorem PlannedBy.unpaged (hp : PlannedBy r windowAlias spec p) (hpaging : spec.PagesByNumber) :
    PlannedBy r windowAlias spec.unpaged p.unpaged where
  resolver := hp.resolver
  windowAlias := hp.windowAlias
  target := (targetTable_unpaged hpaging).trans hp.target
  operation := hp.operation
  output := hp.output
  outputKind := hp.outputKind
  arguments := Arguments.classify_unpaged hp.arguments

/-- A specification that is planned is planned without its page by what its planner drafts without it. -/
theorem ofSpec_unpaged {plan : Plan} (hplan : ofSpec r windowAlias spec = .ok plan)
    (hp : PlannedBy r windowAlias spec p) (hpaging : spec.PagesByNumber) {batch : Batch}
    {relations : Option Relations} {d : Draft}
    (hrun : (statements p.unpaged).run default = .ok ((batch, relations), d)) :
    ofSpec r windowAlias spec.unpaged = .ok ⟨batch, d.rules, d.params, relations⟩ := by
  have hunpaged := hp.unpaged hpaging
  unfold ofSpec at hplan ⊢
  obtain ⟨_, _, hplan⟩ := except_bind_ok.mp hplan
  split at hplan
  · cases hplan
  · rename_i hallowed
    rw [hunpaged.eq hunpaged.target hunpaged.arguments] at hrun
    refine except_bind_ok.mpr ⟨_, hunpaged.target, ?_⟩
    refine (if_neg hallowed).trans ?_
    exact except_bind_ok.mpr ⟨_, hunpaged.arguments, except_bind_ok.mpr ⟨_, hrun, rfl⟩⟩

end Plan

end ShapeSql
