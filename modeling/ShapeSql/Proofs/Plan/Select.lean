import ShapeSql.Plan.Select
import ShapeSql.Proofs.Plan.Filter

namespace ShapeSql

open Sql Planning

/-- A leaf of a planned statement: a hole that one of the rules fills, or a declared parameter that no
rule has to do with. -/
def Sql.Leaf.SettledBy (rules : List HoleRule) (params : List Param) : Leaf → Prop
  | .param name => ∃ p ∈ params, p.name = name ∧ (p.transform = .required ∨ rules = [])
  | .hole place id => (Leaf.hole place id).FilledBy rules
  | .broken _ => False

theorem Sql.Leaf.FilledBy.settledBy {rules : List HoleRule} {l : Leaf} (h : l.FilledBy rules)
    (params : List Param) : l.SettledBy rules params := by
  cases l with
  | hole place id => exact h
  | param _ => exact h.elim
  | broken _ => exact h.elim

namespace Planner

variable {d d' : Draft}

/-- The filters of a select, the relations that it is planned over, and the draft that they leave. -/
def Selects (p : Planner) (filters : List Filter) (relations : Relations) (d : Draft) : Prop :=
  ∃ start joined, p.outputRelations = .ok start ∧
    (p.selectFilters start p.arguments.filters).run default = .ok ((filters, joined), d) ∧
    relations = joined.anchorKeys p.schema

/-- The conditions of the filters are filled. -/
def FillsAll (d : Draft) (filters : List Filter) : Prop :=
  ∀ filter ∈ filters, d.Fills (filter.expr.collect .leaves ())

/-- A relation to compare is there already, or joined along a path that leads to it. -/
theorem joinTarget_cases {p : Planner} {relations after : Relations} {join path : Path}
    {target : Relation} (h : p.joinTarget relations join path = .ok (target, after)) :
    (relations.find? join = some target ∧ after = relations) ∨
      relations.find? join = none ∧ ∃ extra, p.resolver.resolvePath p.table join = .ok extra ∧
        relations.merged extra = .ok after ∧ after.find? join = some target := by
  unfold joinTarget at h
  split at h
  · rename_i hfound
    cases h
    exact Or.inl ⟨hfound, rfl⟩
  · rename_i hnone
    obtain ⟨extra, hextra, h⟩ := except_bind_ok.mp h
    obtain ⟨merged, hmerged, h⟩ := except_bind_ok.mp h
    split at h
    · rename_i hfound
      cases h
      exact Or.inr ⟨hnone, extra, hextra, hmerged, hfound⟩
    · cases h

/-- A filter compares the target table, or the relation that it names, once that is joined. -/
theorem selectFilter_cases {p : Planner} {relations after : Relations} {argument : FieldTree}
    {filter : Filter}
    (hrun : (p.selectFilter relations argument).run d = .ok ((filter, after), d')) :
    (argument.label.directives.join = none ∧ after = relations ∧ filter.target = none ∧
      (p.fieldFilter ⟨p.table.name, p.table⟩ argument.label.directives.ignore argument).run d =
        .ok (filter.expr, d')) ∨
    ∃ join target, argument.label.directives.join = some join ∧
      p.joinTarget relations join argument.label.path = .ok (target, after) ∧
      filter.target = some target.id ∧
      (p.fieldFilter ⟨target.aliasName, p.schema.table target.table⟩
        argument.label.directives.ignore argument).run d = .ok (filter.expr, d') := by
  unfold selectFilter at hrun
  split at hrun
  · rename_i hnone
    simp only [run_bind_ok, run_pure_ok, Prod.mk.injEq] at hrun
    obtain ⟨expr, between, hexpr, ⟨rfl, rfl⟩, rfl⟩ := hrun
    exact Or.inl ⟨hnone, rfl, rfl, hexpr⟩
  · rename_i join hjoin
    simp only [run_bind_ok, run_lift_ok, run_pure_ok, Prod.mk.injEq] at hrun
    obtain ⟨⟨target, joined⟩, _, ⟨htarget, rfl⟩, expr, between, hexpr, ⟨rfl, rfl⟩, rfl⟩ := hrun
    exact Or.inr ⟨join, target, hjoin, htarget, rfl, hexpr⟩

/-- The first filter is planned first, and the others over what it joins. -/
theorem selectFilters_cons {p : Planner} {relations after : Relations} {argument : FieldTree}
    {rest : List FieldTree} {filters : List Filter}
    (hrun : (p.selectFilters relations (argument :: rest)).run d = .ok ((filters, after), d')) :
    ∃ first middle between others,
      (p.selectFilter relations argument).run d = .ok ((first, middle), between) ∧
      (p.selectFilters middle rest).run between = .ok ((others, after), d') ∧
      filters = first :: others := by
  simp only [selectFilters, run_bind_ok, run_pure_ok, Prod.mk.injEq] at hrun
  obtain ⟨⟨first, middle⟩, between, hfirst, ⟨others, last⟩, _, hrest, ⟨rfl, rfl⟩, rfl⟩ := hrun
  exact ⟨first, middle, between, others, hfirst, hrest, rfl⟩

theorem selectFilter_extends (p : Planner) {relations after : Relations} {argument : FieldTree}
    {filter : Filter} (hd : d.Sound)
    (hrun : (p.selectFilter relations argument).run d = .ok ((filter, after), d')) :
    d.Extends (argument.preorder.map comparison) d' ∧ d'.Fills (filter.expr.collect .leaves ()) := by
  rcases selectFilter_cases hrun with ⟨_, _, _, hexpr⟩ | ⟨_, _, _, _, _, hexpr⟩
  · exact p.fieldFilter_extends argument _ _ hd hexpr
  · exact p.fieldFilter_extends argument _ _ hd hexpr

theorem selectFilters_extends (p : Planner) {relations after : Relations}
    {arguments : List FieldTree} {filters : List Filter} (hd : d.Sound)
    (hrun : (p.selectFilters relations arguments).run d = .ok ((filters, after), d')) :
    d.Extends ((Tree.preorderAll arguments).map comparison) d' ∧ FillsAll d' filters := by
  induction arguments generalizing d relations filters with
  | nil =>
    simp only [selectFilters, run_pure_ok, Prod.mk.injEq] at hrun
    obtain ⟨⟨rfl, rfl⟩, rfl⟩ := hrun
    exact ⟨.refl hd, List.forall_mem_nil _⟩
  | cons argument rest ih =>
    obtain ⟨first, middle, between, others, hfirst, hrest, rfl⟩ := selectFilters_cons hrun
    obtain ⟨hhead, hfills⟩ := p.selectFilter_extends hd hfirst
    obtain ⟨htail, hothers⟩ := ih hhead.sound hrest
    rw [Tree.preorderAll, List.map_append]
    refine ⟨hhead.trans htail, ?_⟩
    intro filter hfilter
    rcases List.mem_cons.mp hfilter with rfl | hother
    · exact htail.fills hfills
    · exact hothers filter hother

/-- The column of an order-by argument, once its relation is found. -/
def columnAt (p : Planner) (paged : Bool) (path : Path) (column : String)
    (v : Tree.Visit Relation) : Except Error Expr := do
  if paged && !Relations.reachedToOne v then
    throw (.badAttribute (.pagedByCollection path v.label.path))
  match (p.schema.table v.label.table).findColumn column with
  | some found => return .columnOf v.label.aliasName found.name
  | none => throw (.badName path.display (.column column (p.schema.table v.label.table).name))

theorem columnAt_inv {p : Planner} {paged : Bool} {path : Path} {column : String}
    {v : Tree.Visit Relation} {e : Expr} (h : p.columnAt paged path column v = .ok e) :
    (paged && !Relations.reachedToOne v) = false ∧
      ∃ found, (p.schema.table v.label.table).findColumn column = some found ∧
        e = .columnOf v.label.aliasName found.name := by
  unfold columnAt at h
  simp only at h
  split at h
  · cases h
  · rename_i hpaged
    split at h
    · rename_i found hfound
      cases h
      exact ⟨(Bool.not_eq_true _).mp hpaged, found, hfound, rfl⟩
    · cases h

/-- A column that an order-by argument fixes is one of the table of a relation, which links to one row
reach where the result is paged. -/
theorem orderColumn_inv {p : Planner} {relations : Relations} {paged : Bool} {path : Path}
    {named : Option String} {column : String} {e : Expr}
    (h : p.orderColumn relations paged path named column = .ok e) :
    ∃ v : Tree.Visit Relation,
      (named = none ∧ v = ⟨relations.root, [], []⟩ ∨
        ∃ name, named = some name ∧ p.orderRelation relations name = some v) ∧
      (paged && !Relations.reachedToOne v) = false ∧
      ∃ found, (p.schema.table v.label.table).findColumn column = some found ∧
        e = .columnOf v.label.aliasName found.name := by
  unfold orderColumn at h
  split at h
  · exact ⟨_, Or.inl ⟨rfl, rfl⟩, columnAt_inv h⟩
  · split at h
    · rename_i v hnamed
      exact ⟨v, Or.inr ⟨_, rfl, hnamed⟩, columnAt_inv h⟩
    · cases h

theorem leaves_of_orderColumn (p : Planner) {relations : Relations} {paged : Bool} {path : Path}
    {named : Option String} {column : String} {e : Expr}
    (h : p.orderColumn relations paged path named column = .ok e) : e.collect .leaves () = [] := by
  obtain ⟨_, _, _, _, _, rfl⟩ := orderColumn_inv h
  exact Expr.collect_columnOf _ _

/-- What an order-by argument asks for: a column that it names, the column that it stands for, or those
that its value names. Without the directive it asks for nothing. -/
inductive AsksOrder (p : Planner) (relations : Relations) (field : Field) : Option Action → Prop
  | nothing (horder : field.directives.orderBy = none) : AsksOrder p relations field none
  | column {named : Option String} {column : String} {e : Expr}
      (horder : field.directives.orderBy = some (.column named column))
      (hcolumn : p.orderColumn relations p.arguments.isPaged field.path named column = .ok e) :
    AsksOrder p relations field (some (.order e))
  | direction {column : Column} (horder : field.directives.orderBy = some .direction)
      (hcolumn : p.resolver.column p.table field = .ok column) :
    AsksOrder p relations field (some (.order (.columnOf relations.root.aliasName column.name)))
  | dynamic (horder : field.directives.orderBy = some .dynamic) :
    AsksOrder p relations field (some (.dynamicOrder
      ⟨relations.root.aliasName, relations.root.table, relations.root.path⟩
      (((relations.visits.drop 1).filter (canOrderBy p.arguments.isPaged)).map fun v =>
        ⟨v.label.aliasName, v.label.table, v.label.path⟩)))

theorem asksOrder {p : Planner} {relations : Relations} {field : Field} {action : Option Action}
    (h : p.orderAction relations field = .ok action) : p.AsksOrder relations field action := by
  unfold orderAction at h
  simp only at h
  split at h
  · rename_i horder
    cases h
    exact .nothing horder
  · rename_i horder
    obtain ⟨e, hcolumn, hpure⟩ := except_bind_ok.mp h
    cases hpure
    exact .column horder hcolumn
  · rename_i horder
    obtain ⟨column, hcolumn, hpure⟩ := except_bind_ok.mp h
    cases hpure
    exact .direction horder hcolumn
  · rename_i horder
    cases h
    exact .dynamic horder

/-- The first argument is passed over, or its rule is recorded before those of the others. -/
theorem orderItems_cons {p : Planner} {relations : Relations} {field : Field} {rest : List Field}
    {items : List OrderItem} (hrun : (p.orderItems relations (field :: rest)).run d = .ok (items, d')) :
    (p.orderAction relations field = .ok none ∧
        (p.orderItems relations rest).run d = .ok (items, d')) ∨
      ∃ action hole between others, p.orderAction relations field = .ok (some action) ∧
        (Planning.rule field.path action).run d = .ok (hole, between) ∧
        (p.orderItems relations rest).run between = .ok (others, d') ∧
        items = .hole hole :: others := by
  simp only [orderItems, run_bind_ok, run_lift_ok] at hrun
  obtain ⟨found, _, ⟨hfound, rfl⟩, hrest⟩ := hrun
  cases found with
  | none => exact .inl ⟨hfound, hrest⟩
  | some action =>
    simp only [run_bind_ok, run_pure_ok] at hrest
    obtain ⟨hole, between, hhole, others, _, hothers, rfl, rfl⟩ := hrest
    exact .inr ⟨action, hole, between, others, hfound, hhole, hothers, rfl⟩

/-- The place and the path of an ordering. -/
def ordering (field : Field) : Place × Path := (.order, field.path)

/-- The rule of an ordering has no parameter and no holes. -/
theorem orderAction_admits (p : Planner) {relations : Relations} {field : Field} {action : Action}
    (h : p.orderAction relations field = .ok (some action)) (d : Draft) :
    Admits d field.path action ∧ action.place = .order := by
  have hfixed : ∀ e : Expr, e.collect .leaves () = [] → Admits d field.path (.order e) := by
    intro e he
    refine ⟨?_, nofun, nofun, trivial⟩
    rw [Action.leaves, he]
    exact nofun
  cases asksOrder h with
  | column _ hcolumn => exact ⟨hfixed _ (p.leaves_of_orderColumn hcolumn), rfl⟩
  | direction => exact ⟨hfixed _ (Expr.collect_columnOf _ _), rfl⟩
  | dynamic => exact ⟨⟨nofun, nofun, nofun, trivial⟩, rfl⟩

theorem orderItems_extends (p : Planner) {relations : Relations} {fields : List Field}
    {items : List OrderItem} (hd : d.Sound)
    (hrun : (p.orderItems relations fields).run d = .ok (items, d')) :
    d.Extends (fields.map ordering) d' ∧ d'.Fills (orderItemsCollect .leaves () items) := by
  induction fields generalizing d items with
  | nil =>
    simp only [orderItems, run_pure_ok] at hrun
    obtain ⟨rfl, rfl⟩ := hrun
    exact ⟨.refl hd, Draft.fills_nil⟩
  | cons field rest ih =>
    rcases orderItems_cons hrun with ⟨_, hrest⟩ | ⟨action, hole, between, others, hfound, hhole, hothers, rfl⟩
    · obtain ⟨hext, hfills⟩ := ih hd hrest
      exact ⟨hext.mono (List.sublist_cons_self _ _), hfills⟩
    · obtain ⟨hadmits, hplace⟩ := p.orderAction_admits hfound d
      have hmark : action.mark field.path = [ordering field] := by
        rw [Action.mark, if_pos (Action.isMarked_of_place (Or.inr hplace)), hplace]
        rfl
      obtain ⟨hrule, hfilled⟩ := rule_extends hd hadmits hhole
      obtain ⟨htail, hfills⟩ := ih hrule.sound hothers
      rw [hmark] at hrule
      rw [hplace] at hfilled
      refine ⟨hrule.trans htail, ?_⟩
      intro l hl
      rw [orderItemsCollect] at hl
      rcases List.mem_cons.mp hl with rfl | hother
      · exact htail.filledBy hfilled
      · exact hfills l hother

/-- The parameter of a paging argument, declared in the form that only paging asks for. -/
theorem pageBound_extends {argument : Option Field} {bound : Option Expr} (hd : d.Sound)
    (hrun : (pageBound argument).run d = .ok (bound, d')) :
    d.Extends [] d' ∧ ∀ l ∈ optionalCollect .leaves () bound, ∃ p ∈ d'.params,
      l = .param p.name ∧ p.transform = .required := by
  cases argument with
  | none =>
    simp only [pageBound, run_pure_ok] at hrun
    obtain ⟨rfl, rfl⟩ := hrun
    exact ⟨.refl hd, List.forall_mem_nil _⟩
  | some field =>
    simp only [pageBound, run_bind_ok, run_pure_ok] at hrun
    obtain ⟨name, between, hparam, rfl, rfl⟩ := hrun
    obtain ⟨hext, q, hq, rfl, _, htransform⟩ := param_extends hd hparam
    refine ⟨hext, ?_⟩
    intro l hl
    rw [optionalCollect, Expr.collect, Collector.leaves_param, List.mem_singleton] at hl
    exact ⟨q, hq, hl, htransform⟩

/-- The leaves of a query apart from its ordering and its page. -/
def unordered (query : Query) : List Leaf :=
  { query with orderBy := [], offset := none, fetch := none }.collect .leaves ()

theorem mem_leaves_query (query : Query) (l : Leaf) :
    l ∈ query.collect .leaves () ↔ l ∈ unordered query ∨ l ∈ orderItemsCollect .leaves () query.orderBy ∨
      l ∈ optionalCollect .leaves () query.offset ∨ l ∈ optionalCollect .leaves () query.fetch := by
  obtain ⟨distinct, projection, source, filter, groupBy, orderBy, offset, fetch⟩ := query
  simp only [unordered, Query.collect, optionalCollect, orderItemsCollect, List.mem_append,
    List.not_mem_nil]
  tauto

/-- A page adds its parameters to what the query leaves open. -/
theorem page_extends (p : Planner) {query paged : Query} {aliasName : String} (hd : d.Sound)
    (hquery : d.Fills (query.collect .leaves ()))
    (hrun : (p.page query aliasName).run d = .ok (paged, d')) :
    d.Extends [] d' ∧ ∀ l ∈ paged.collect .leaves (), l.SettledBy d'.rules d'.params := by
  simp only [page, run_bind_ok, run_pure_ok] at hrun
  obtain ⟨offset, between, hoffset, fetch, after, hfetch, rfl, rfl⟩ := hrun
  obtain ⟨hfirst, hskipped⟩ := pageBound_extends hd hoffset
  obtain ⟨hsecond, htaken⟩ := pageBound_extends hfirst.sound hfetch
  have hext := hfirst.trans hsecond
  refine ⟨hext, ?_⟩
  intro l hl
  have hparts := (Query.mem_collect_page _ _ _ _ hl).resolve_left List.not_mem_nil
  rcases hparts with hold | horder | hoff | hfet
  · exact (hext.filledBy (hquery l hold)).settledBy _
  · rw [orderItemsCollect_append, collect_keyTerms, List.append_nil] at horder
    exact (hext.filledBy (hquery l (Query.mem_collect_of_orderBy horder))).settledBy _
  · obtain ⟨q, hq, rfl, hrequired⟩ := hskipped l hoff
    exact ⟨q, hsecond.params q hq, rfl, Or.inl hrequired⟩
  · obtain ⟨q, hq, rfl, hrequired⟩ := htaken l hfet
    exact ⟨q, hq, rfl, Or.inl hrequired⟩

theorem countQuery_fills (p : Planner) {relations : Relations} {filters : List Filter}
    (hfilters : FillsAll d filters) : d.Fills ((p.countQuery relations filters).collect .leaves ()) := by
  intro l hl
  rw [countQuery, Query.mem_collect_project, Query.collect_reading, Source.collect_of, Factor.collect,
    Collector.leaves_ordering, List.nil_append, Query.mem_collect_restrictAll] at hl
  rcases hl with (hbase | ⟨filter, hfilter, hl⟩) | hcount
  · split at hbase
    · rw [mem_collect_projectKey, Query.collect_distinct, Query.collect_reading,
        collect_fromClause] at hbase
      cases hbase
    · rw [Query.mem_collect_project, Query.collect_reading, collect_fromClause] at hbase
      simp at hbase
  · exact hfilters filter hfilter l hl
  · simp at hcount

theorem keyWindow_extends (p : Planner) {relations : Relations} {filters : List Filter}
    {order : List OrderItem} {query : Query} (hd : d.Sound) (hfilters : FillsAll d filters)
    (horder : d.Fills (orderItemsCollect .leaves () order))
    (hrun : (p.keyWindow relations filters order).run d = .ok (query, d')) :
    d.Extends [] d' ∧ ∀ l ∈ query.collect .leaves (), l.SettledBy d'.rules d'.params := by
  unfold keyWindow at hrun
  split at hrun
  · simp only [run_bind_ok, run_throw_ok, false_and, exists_false] at hrun
  · simp only [run_bind_ok, run_pure_ok] at hrun
    obtain ⟨window, between, hwindow, rfl, rfl⟩ := hrun
    have hinner : d.Fills ({ filters.foldl (p.windowFilter relations) (p.projectKey
        (Query.reading (p.fromClause relations Relations.reachedToOne)) relations.root.aliasName)
        with orderBy := order }.collect .leaves ()) := by
      intro l hl
      rcases (Query.mem_collect_ordered _ _ hl).resolve_left List.not_mem_nil with hquery | hl
      · rcases (p.mem_collect_windowFilters hquery).resolve_left List.not_mem_nil with
          hbase | ⟨filter, hfilter, hl⟩
        · rw [mem_collect_projectKey, Query.collect_reading, collect_fromClause] at hbase
          cases hbase
        · exact hfilters filter hfilter l hl
      · exact horder l hl
    obtain ⟨hext, hsettled⟩ := p.page_extends hd hinner hwindow
    refine ⟨hext, ?_⟩
    intro l hl
    rcases (Query.mem_collect_ordered _ _ hl).resolve_left List.not_mem_nil with hquery | hl
    · rcases (Query.mem_collect_restrictAll _ _ _).mp hquery with hbase | ⟨filter, hfilter, hl⟩
      · rw [mem_collect_projectAll, Query.collect_reading, Collector.leaves_ordering, List.nil_append,
          collect_joinAll, Source.mem_collect_join, Source.collect_of, Factor.collect, collect_factor,
          collect_keyEq] at hbase
        simp only [List.not_mem_nil, or_false] at hbase
        exact hsettled l hbase
      · have hmem : filter ∈ filters := List.mem_of_mem_filter hfilter
        exact ((hext.fills (hfilters filter hmem)) l hl).settledBy _
    · rw [orderItemsCollect_append, collect_keyTerms, List.append_nil] at hl
      exact ((hext.fills horder) l hl).settledBy _

/-- The whole output is paged, or returned as it is. -/
theorem plainQuery_cases {p : Planner} {relations : Relations} {filters : List Filter}
    {order : List OrderItem} {query : Query}
    (hrun : (p.plainQuery relations filters order).run d = .ok (query, d')) :
    let ordered := { filters.foldl
      (fun (query : Query) (filter : Filter) => query.restrict filter.expr)
      (p.projectAll (Query.reading (p.fromClause relations fun _ => true)) relations)
      with orderBy := order }
    (p.arguments.isPaged = true ∧
      (p.page ordered relations.root.aliasName).run d = .ok (query, d')) ∨
    (p.arguments.isPaged = false ∧ query = ordered ∧ d' = d) := by
  simp only [plainQuery] at hrun
  split at hrun
  · exact Or.inl ⟨‹_›, hrun⟩
  · rename_i hplain
    rw [run_pure_ok] at hrun
    obtain ⟨rfl, rfl⟩ := hrun
    exact Or.inr ⟨(Bool.not_eq_true _).mp hplain, rfl, rfl⟩

theorem plainQuery_extends (p : Planner) {relations : Relations} {filters : List Filter}
    {order : List OrderItem} {query : Query} (hd : d.Sound) (hfilters : FillsAll d filters)
    (horder : d.Fills (orderItemsCollect .leaves () order))
    (hrun : (p.plainQuery relations filters order).run d = .ok (query, d')) :
    d.Extends [] d' ∧ ∀ l ∈ query.collect .leaves (), l.SettledBy d'.rules d'.params := by
  have hordered : d.Fills ({ filters.foldl
      (fun (query : Query) (filter : Filter) => query.restrict filter.expr)
      (p.projectAll (Query.reading (p.fromClause relations fun _ => true)) relations)
      with orderBy := order }.collect .leaves ()) := by
    intro l hl
    rcases (Query.mem_collect_ordered _ _ hl).resolve_left List.not_mem_nil with hquery | hl
    · rcases (Query.mem_collect_restrictAll _ _ _).mp hquery with hbase | ⟨filter, hfilter, hl⟩
      · rw [mem_collect_projectAll, Query.collect_reading, collect_fromClause] at hbase
        cases hbase
      · exact hfilters filter hfilter l hl
    · exact horder l hl
  rcases plainQuery_cases hrun with ⟨_, hpage⟩ | ⟨_, rfl, rfl⟩
  · exact p.page_extends hd hordered hpage
  · exact ⟨.refl hd, fun l hl => (hordered l hl).settledBy _⟩

/-- What a select makes: a count, a page of keys joined back where anything else is joined, or the
output itself, over the relations of the output and all that filters join. -/
theorem select_inv (p : Planner) {query : Query} {relations : Relations}
    (hrun : p.select.run d = .ok ((query, relations), d')) :
    ∃ start filters joined order between after, p.outputRelations = .ok start ∧
      (p.selectFilters start p.arguments.filters).run d = .ok ((filters, joined), between) ∧
      relations = joined.anchorKeys p.schema ∧
      (p.orderItems relations p.arguments.orderBy).run between = .ok (order, after) ∧
      ((p.outputKind = .count ∧ p.arguments.isPaged = false ∧
          query = p.countQuery relations filters ∧ d' = after) ∨
        (p.outputKind ≠ .count ∧ p.arguments.isPaged = true ∧ relations.hasJoins = true ∧
          (p.keyWindow relations filters order).run after = .ok (query, d')) ∨
        (p.outputKind ≠ .count ∧ (p.arguments.isPaged && relations.hasJoins) = false ∧
          (p.plainQuery relations filters order).run after = .ok (query, d'))) := by
  simp only [select, run_bind_ok, run_lift_ok] at hrun
  obtain ⟨start, _, ⟨hstart, rfl⟩, ⟨filters, joined⟩, between, hfilters, order, after, horder,
    hrest⟩ := hrun
  split at hrest
  · rename_i hcount
    split at hrest
    · simp only [run_bind_ok, run_throw_ok, false_and, exists_false] at hrest
    · rename_i hplain
      simp only [run_bind_ok, run_pure_ok, Prod.mk.injEq] at hrest
      obtain ⟨_, _, ⟨rfl, rfl⟩, ⟨rfl, rfl⟩, rfl⟩ := hrest
      exact ⟨start, filters, joined, order, between, _, hstart, hfilters, rfl, horder,
        .inl ⟨hcount, Bool.eq_false_iff.mpr hplain, rfl, rfl⟩⟩
  · rename_i hcount
    split at hrest
    · rename_i hwindowed
      obtain ⟨hpaged, hjoins⟩ := Bool.and_eq_true_iff.mp hwindowed
      simp only [run_bind_ok, run_pure_ok, Prod.mk.injEq] at hrest
      obtain ⟨_, _, hwindow, ⟨rfl, rfl⟩, rfl⟩ := hrest
      exact ⟨start, filters, joined, order, between, after, hstart, hfilters, rfl, horder,
        .inr (.inl ⟨hcount, hpaged, hjoins, hwindow⟩)⟩
    · rename_i hplain
      simp only [run_bind_ok, run_pure_ok, Prod.mk.injEq] at hrest
      obtain ⟨_, _, hquery, ⟨rfl, rfl⟩, rfl⟩ := hrest
      exact ⟨start, filters, joined, order, between, after, hstart, hfilters, rfl, horder,
        .inr (.inr ⟨hcount, Bool.eq_false_iff.mpr hplain, hquery⟩)⟩

/-- A select plans its filters, then its orderings, and last the query, which marks no rules. -/
theorem select_cases (p : Planner) {query : Query} {relations : Relations} (hd : d.Sound)
    (hrun : p.select.run d = .ok ((query, relations), d')) :
    ∃ start filters joined order between after, p.outputRelations = .ok start ∧
      (p.selectFilters start p.arguments.filters).run d = .ok ((filters, joined), between) ∧
      (p.orderItems (joined.anchorKeys p.schema) p.arguments.orderBy).run between =
        .ok (order, after) ∧
      after.Extends [] d' ∧ ∀ l ∈ query.collect .leaves (), l.SettledBy d'.rules d'.params := by
  obtain ⟨start, filters, joined, order, between, after, hstart, hfilters, hrelations, horder, hquery⟩ :=
    p.select_inv hrun
  subst hrelations
  refine ⟨start, filters, joined, order, between, after, hstart, hfilters, horder, ?_⟩
  obtain ⟨hfiltered, hfills⟩ := p.selectFilters_extends hd hfilters
  obtain ⟨hsorted, hordering⟩ := p.orderItems_extends hfiltered.sound horder
  have hkept : FillsAll after filters := fun filter hfilter => hsorted.fills (hfills filter hfilter)
  rcases hquery with ⟨_, _, rfl, rfl⟩ | ⟨_, _, _, hwindow⟩ | ⟨_, _, hplain⟩
  · exact ⟨.refl hsorted.sound, fun l hl => (p.countQuery_fills hkept l hl).settledBy _⟩
  · exact p.keyWindow_extends hsorted.sound hkept hordering hwindow
  · exact p.plainQuery_extends hsorted.sound hkept hordering hplain

theorem select_extends (p : Planner) {query : Query} {relations : Relations} (hd : d.Sound)
    (hrun : p.select.run d = .ok ((query, relations), d')) :
    d.Extends ((Tree.preorderAll p.arguments.filters).map comparison ++
        p.arguments.orderBy.map ordering) d' ∧
      ∀ l ∈ query.collect .leaves (), l.SettledBy d'.rules d'.params := by
  obtain ⟨_, _, _, _, _, _, _, hfilters, horder, hlast, hsettled⟩ := p.select_cases hd hrun
  obtain ⟨hfiltered, _⟩ := p.selectFilters_extends hd hfilters
  obtain ⟨hsorted, _⟩ := p.orderItems_extends hfiltered.sound horder
  exact ⟨((hfiltered.trans hsorted).trans hlast).mono (by simp), hsettled⟩

end Planner

end ShapeSql
