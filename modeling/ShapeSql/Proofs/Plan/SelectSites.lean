import ShapeSql.Proofs.Plan.FromSites
import ShapeSql.Proofs.Plan.Select

namespace ShapeSql

open Sql Planning

variable {c : Catalog} {columns clauses : Prop} {d d' : Draft} {outer : Scopes}

/-- A fold of steps that each add sites, but no row sources. -/
theorem mem_sites_foldl {α : Type} (c : Catalog) (outer : Scopes) (step : Query → α → Query)
    (added : α → Scopes → List Site)
    (hscopes : ∀ q a, (step q a).scopes c outer = q.scopes c outer)
    (hstep : ∀ q a site, site ∈ (step q a).collect (.sites c) outer →
      site ∈ q.collect (.sites c) outer ∨ site ∈ added a (q.scopes c outer))
    (items : List α) (q : Query) :
    (items.foldl step q).scopes c outer = q.scopes c outer ∧
      ∀ site ∈ (items.foldl step q).collect (.sites c) outer,
        site ∈ q.collect (.sites c) outer ∨ ∃ a ∈ items, site ∈ added a (q.scopes c outer) := by
  induction items generalizing q with
  | nil => exact ⟨rfl, fun site hsite => Or.inl hsite⟩
  | cons a items ih =>
    obtain ⟨hsame, hsites⟩ := ih (step q a)
    rw [hscopes] at hsame hsites
    refine ⟨hsame, ?_⟩
    intro site hsite
    rcases hsites site hsite with hfirst | ⟨b, hb, hlater⟩
    · rcases hstep q a site hfirst with hq | hnew
      · exact Or.inl hq
      · exact Or.inr ⟨a, List.mem_cons_self, hnew⟩
    · exact Or.inr ⟨b, List.mem_cons_of_mem _ hb, hlater⟩

namespace Planner

variable {p : Planner} {relations : Relations}

section Projections

theorem sites_projectKey (p : Planner) (q : Query) (aliasName : String) :
    (p.projectKey q aliasName).scopes c outer = q.scopes c outer ∧
      ∀ site ∈ (p.projectKey q aliasName).collect (.sites c) outer, site ∈ q.collect (.sites c) outer ∨
        ∃ column ∈ p.table.keyColumns, site = .column (q.scopes c outer) aliasName column.name := by
  obtain ⟨hscopes, hsites⟩ := mem_sites_foldl c outer
    (fun (q : Query) (column : Column) =>
      q.project (.columnOf aliasName column.name) (some column.name))
    (fun column scopes => [.column scopes aliasName column.name]) (fun _ _ => rfl)
    (fun q column site hsite => by
      rw [Query.mem_collect_project, Expr.sites_columnOf] at hsite
      exact hsite) p.table.keyColumns q
  refine ⟨hscopes, ?_⟩
  intro site hsite
  rcases hsites site hsite with hq | ⟨column, hcolumn, hnew⟩
  · exact Or.inl hq
  · exact Or.inr ⟨column, hcolumn, List.mem_singleton.mp hnew⟩

theorem sites_projectAll (p : Planner) (q : Query) (relations : Relations) :
    (p.projectAll q relations).scopes c outer = q.scopes c outer ∧
      ∀ site ∈ (p.projectAll q relations).collect (.sites c) outer, site ∈ q.collect (.sites c) outer ∨
        ∃ r ∈ relations.all, ∃ column ∈ r.columns, site =
          .column (q.scopes c outer) r.aliasName (p.schema.columnName column.column) := by
  let step := fun (r : Relation) (q : Query) (column : ProjectedColumn) =>
    q.project (.columnOf r.aliasName (p.schema.columnName column.column)) (some (r.columnAlias column))
  have hrelation : ∀ (q : Query) (r : Relation),
      (r.columns.foldl (step r) q).scopes c outer = q.scopes c outer ∧
        ∀ site ∈ (r.columns.foldl (step r) q).collect (.sites c) outer,
          site ∈ q.collect (.sites c) outer ∨
          ∃ column ∈ r.columns, site ∈
            [Site.column (q.scopes c outer) r.aliasName (p.schema.columnName column.column)] := by
    intro q r
    refine mem_sites_foldl c outer (step r) (fun column scopes =>
      [.column scopes r.aliasName (p.schema.columnName column.column)]) (fun _ _ => rfl) ?_ r.columns q
    intro q column site hsite
    rw [Query.mem_collect_project, Expr.sites_columnOf] at hsite
    exact hsite
  obtain ⟨hscopes, hsites⟩ := mem_sites_foldl c outer (fun q r => r.columns.foldl (step r) q)
    (fun r scopes => r.columns.map fun column =>
      .column scopes r.aliasName (p.schema.columnName column.column))
    (fun q r => (hrelation q r).1)
    (fun q r site hsite => by
      rcases (hrelation q r).2 site hsite with hq | ⟨column, hcolumn, hnew⟩
      · exact Or.inl hq
      · refine Or.inr (List.mem_map.mpr ⟨column, hcolumn, ?_⟩)
        exact (List.mem_singleton.mp hnew).symm) relations.all q
  refine ⟨hscopes, ?_⟩
  intro site hsite
  rcases hsites site hsite with hq | ⟨r, hr, hnew⟩
  · exact Or.inl hq
  · obtain ⟨column, hcolumn, rfl⟩ := List.mem_map.mp hnew
    exact Or.inr ⟨r, hr, column, hcolumn, rfl⟩

theorem sites_restrictAll (filters : List Filter) (q : Query) :
    (filters.foldl (fun (q : Query) (filter : Filter) => q.restrict filter.expr) q).scopes c outer =
        q.scopes c outer ∧
      ∀ site ∈ (filters.foldl (fun (q : Query) (filter : Filter) =>
          q.restrict filter.expr) q).collect (.sites c) outer,
        site ∈ q.collect (.sites c) outer ∨
          ∃ filter ∈ filters, site ∈ filter.expr.collect (.sites c) (q.scopes c outer) :=
  mem_sites_foldl c outer (fun (q : Query) (filter : Filter) => q.restrict filter.expr)
    (fun filter scopes => filter.expr.collect (.sites c) scopes) (fun _ _ => rfl)
    (fun _ _ _ hsite => (Query.mem_collect_restrict _ _).mp hsite) filters q

/-- The columns of the key are columns of the table. -/
theorem keyColumns_mem (hs : p.schema.Sound) (htable : p.table ∈ p.schema.tables) {column : Column}
    (h : column ∈ p.table.keyColumns) : column ∈ p.table.columns :=
  (hs.laid p.table htable).mem_of_mem_keyColumns h

theorem keyTerms_asked (hs : p.schema.Sound) (htable : p.table ∈ p.schema.tables)
    {aliasName : String} {scopes : Scopes} (hreads : columns → scopes.Reads aliasName p.table) :
    AllAsked columns clauses (orderItemsCollect (.sites c) scopes (p.keyTerms aliasName)) := by
  have hterms : ∀ keys : List Column, (∀ column ∈ keys, column ∈ p.table.columns) →
      AllAsked columns clauses (orderItemsCollect (.sites c) scopes
        ((keys.map fun column => Expr.columnOf aliasName column.name).map fun key =>
          .term ⟨key, none⟩)) := by
    intro keys hkeys
    induction keys with
    | nil => exact nofun
    | cons column keys ih =>
      rw [List.forall_mem_cons] at hkeys
      intro site hsite
      rw [List.map_cons, List.map_cons, orderItemsCollect, Expr.sites_columnOf] at hsite
      rcases List.mem_cons.mp hsite with rfl | hrest
      · exact fun hasked => hreads hasked column hkeys.1
      · exact ih hkeys.2 site hrest
  exact hterms p.table.keyColumns fun column h => keyColumns_mem hs htable h

end Projections

section Filters

/-- The condition asks for columns of the relation, and for nothing else in scope. -/
def Narrow (p : Planner) (c : Catalog) (columns clauses : Prop) (d : Draft) (r : Relation)
    (e : Expr) : Prop :=
  ∀ scopes : Scopes, (columns → scopes.Reads r.aliasName (p.schema.table r.table)) →
    d.Settles p.schema c columns clauses (e.collect (.sites c) scopes)

theorem joinTarget_wired (hs : p.schema.Sound) (hkeyed : p.schema.Keyed)
    (htable : p.table ∈ p.schema.tables) (hwired : relations.Wired p.schema p.table)
    {join path : Path} {target : Relation} {after : Relations}
    (h : p.joinTarget relations join path = .ok (target, after)) :
    after.Wired p.schema p.table ∧ Relations.KeptIn relations.all after.all ∧
      target ∈ after.all := by
  rcases joinTarget_cases h with ⟨hfound, rfl⟩ | ⟨_, extra, hextra, hmerged, hfound⟩
  · exact ⟨hwired, .refl _, Relations.mem_of_find? hfound⟩
  · exact ⟨hwired.merged (Resolver.resolvePath_wired hs hkeyed htable hextra) hmerged,
      Relations.merged_kept hmerged, Relations.mem_of_find? hfound⟩

/-- A filter compares one of the relations, which are those before and what it joins. -/
theorem selectFilter_narrow (columns clauses : Prop) (hs : p.schema.Sound) (hkeyed : p.schema.Keyed) (hc : c.Knows p.schema)
    (htable : p.table ∈ p.schema.tables) (hd : d.Sound)
    (hwired : relations.Wired p.schema p.table) {argument : FieldTree} {filter : Filter}
    {after : Relations}
    (hrun : (p.selectFilter relations argument).run d = .ok ((filter, after), d')) :
    after.Wired p.schema p.table ∧ Relations.KeptIn relations.all after.all ∧
      d.nextAlias ≤ d'.nextAlias ∧ ∃ r ∈ after.all, (filter.target = some r.id ∨ filter.target = none ∧ r = after.root) ∧
        ((columns → d.Spares r.aliasName) → Narrow p c columns clauses d' r filter.expr) := by
  rcases selectFilter_cases hrun with
    ⟨_, rfl, hnone, hexpr⟩ | ⟨join, target, hjoin, htarget, hid, hexpr⟩
  · obtain ⟨hlater, hconfined⟩ := fieldFilter_confined columns clauses hs hkeyed hc argument
      ⟨p.table.name, p.table⟩ _ htable hd hexpr
    refine ⟨hwired, .refl _, hlater, after.root, after.root_mem_all, Or.inr ⟨hnone, rfl⟩, ?_⟩
    intro hspared scopes hreads
    rw [hwired.rootAlias] at hspared hreads
    rw [hwired.rootTable, hs.table_id htable] at hreads
    exact hconfined scopes hspared hreads
  · obtain ⟨hjoined, hkept, hmem⟩ := joinTarget_wired hs hkeyed htable hwired htarget
    obtain ⟨hlater, hconfined⟩ := fieldFilter_confined columns clauses hs hkeyed hc argument
      ⟨target.aliasName, p.schema.table target.table⟩ _
      ((hjoined.placed htable hmem).table_mem hs) hd hexpr
    refine ⟨hjoined, hkept, hlater, target, hmem, Or.inl hid, ?_⟩
    exact fun hspared scopes hreads => hconfined scopes hspared hreads

/-- What is narrow for a relation is so for the same place of other relations. -/
theorem Narrow.same {before after : Relation} (halias : after.aliasName = before.aliasName)
    (htable : after.table = before.table) {e : Expr} (h : Narrow p c columns clauses d before e) :
    Narrow p c columns clauses d after e := by
  intro scopes hreads
  rw [halias, htable] at hreads
  exact h scopes hreads

/-- The relations that the filters were planned over are those of the output and all that they join,
and each filter compares one of them. -/
theorem selectFilters_narrow (columns clauses : Prop) (hs : p.schema.Sound) (hkeyed : p.schema.Keyed) (hc : c.Knows p.schema)
    (htable : p.table ∈ p.schema.tables) (hd : d.Sound)
    (hwired : relations.Wired p.schema p.table) {arguments : List FieldTree} {filters : List Filter}
    {after : Relations}
    (hrun : (p.selectFilters relations arguments).run d = .ok ((filters, after), d')) :
    after.Wired p.schema p.table ∧ Relations.KeptIn relations.all after.all ∧
      d.nextAlias ≤ d'.nextAlias ∧
      ∀ filter ∈ filters,
        ∃ r ∈ after.all, (filter.target = some r.id ∨ filter.target = none ∧ r = after.root) ∧
          ((columns → d.Spares r.aliasName) → Narrow p c columns clauses d' r filter.expr) := by
  induction arguments generalizing d relations filters with
  | nil =>
    simp only [selectFilters, run_pure_ok, Prod.mk.injEq] at hrun
    obtain ⟨⟨rfl, rfl⟩, rfl⟩ := hrun
    exact ⟨hwired, .refl _, Nat.le_refl _, List.forall_mem_nil _⟩
  | cons argument rest ih =>
    obtain ⟨first, middle, between, others, hfirst, hrest, rfl⟩ := selectFilters_cons hrun
    obtain ⟨hmiddle, hkeptFirst, hnext, r, hr, htarget, hnarrow⟩ :=
      selectFilter_narrow columns clauses hs hkeyed hc htable hd hwired
        hfirst
    have hsound := (p.selectFilter_extends hd hfirst).1.sound
    obtain ⟨hafter, hkeptRest, hlater, hothers⟩ := ih hsound hmiddle hrest
    have hextends := (p.selectFilters_extends hsound hrest).1
    refine ⟨hafter, hkeptFirst.trans hkeptRest, by omega, ?_⟩
    intro filter hfilter
    rcases List.mem_cons.mp hfilter with rfl | hother
    · have hfound : ∃ q ∈ after.all, q.aliasName = r.aliasName ∧ q.table = r.table ∧
          (filter.target = some q.id ∨ filter.target = none ∧ q = after.root) := by
        rcases htarget with hid | ⟨hnone, rfl⟩
        · obtain ⟨q, hq, hsame⟩ := hkeptRest r hr
          exact ⟨q, hq, hsame.aliasName, hsame.table, Or.inl (hsame.id ▸ hid)⟩
        · refine ⟨after.root, after.root_mem_all, ?_, ?_, Or.inr ⟨hnone, rfl⟩⟩
          · rw [hafter.rootAlias, hmiddle.rootAlias]
          · rw [hafter.rootTable, hmiddle.rootTable]
      obtain ⟨q, hq, halias, hsame, hover⟩ := hfound
      refine ⟨q, hq, hover, ?_⟩
      intro hspared scopes hreads
      rw [halias] at hspared
      exact hextends.settles ((hnarrow hspared).same halias hsame scopes hreads)
    · obtain ⟨q, hq, hover, hother⟩ := hothers filter hother
      exact ⟨q, hq, hover, fun hspared => hother fun hasked => (hspared hasked).later hnext⟩

/-- A filter whose condition reads one of the relations: the one it names, or one that is reached by
to-one steps. -/
def Aimed (p : Planner) (c : Catalog) (columns clauses : Prop) (d : Draft) (relations : Relations)
    (filter : Filter) : Prop :=
  ∃ v ∈ relations.visits, Narrow p c columns clauses d v.label filter.expr ∧
    (filter.target = some v.label.id ∨
      filter.target = none ∧ Relations.reachedToOne v = true)

theorem Aimed.later {marked : List (Place × Path)} (h : d.Extends marked d') {filter : Filter}
    (haimed : Aimed p c columns clauses d relations filter) :
    Aimed p c columns clauses d' relations filter := by
  obtain ⟨v, hv, hnarrow, htarget⟩ := haimed
  exact ⟨v, hv, fun scopes hreads => h.settles (hnarrow scopes hreads), htarget⟩

/-- The relations that a select starts from follow the links of the schema. -/
theorem outputRelations_wired (hs : p.schema.Sound) (hkeyed : p.schema.Keyed)
    (htable : p.table ∈ p.schema.tables) {start : Relations} (h : p.outputRelations = .ok start) :
    start.Wired p.schema p.table := by
  unfold outputRelations at h
  split at h
  · exact Resolver.resolve_wired hs hkeyed htable h
  · cases h
    exact Relations.wired_ofTable p.schema p.table

/-- The filters of a select read the relations that it is planned over in the end. -/
theorem selectFilters_aimed (columns clauses : Prop) (hs : p.schema.Sound) (hkeyed : p.schema.Keyed) (hc : c.Knows p.schema)
    (htable : p.table ∈ p.schema.tables) (hd : d.Sound)
    (hwired : relations.Wired p.schema p.table) {arguments : List FieldTree} {filters : List Filter}
    {joined : Relations}
    (hrun : (p.selectFilters relations arguments).run d = .ok ((filters, joined), d'))
    (hspared : columns → ∀ r ∈ (joined.anchorKeys p.schema).all, d.Spares r.aliasName) :
    (joined.anchorKeys p.schema).Wired p.schema p.table ∧
      ∀ filter ∈ filters, Aimed p c columns clauses d' (joined.anchorKeys p.schema) filter := by
  obtain ⟨hjoined, _, _, hfilters⟩ :=
    selectFilters_narrow columns clauses hs hkeyed hc htable hd hwired hrun
  have hanchored := hjoined.anchorKeys hs htable
  refine ⟨hanchored, ?_⟩
  intro filter hfilter
  obtain ⟨r, hr, htarget, hnarrow⟩ := hfilters filter hfilter
  obtain ⟨q, hq, hsame⟩ := Relations.anchorKeys_kept p.schema joined r hr
  have hq' := hnarrow fun hasked => hsame.aliasName ▸ hspared hasked q hq
  rcases htarget with hid | ⟨hnone, rfl⟩
  · obtain ⟨v, hv, rfl⟩ := Relations.exists_visit hq
    exact ⟨v, hv, hq'.same hsame.aliasName hsame.table, Or.inl (hsame.id ▸ hid)⟩
  · refine ⟨_, Relations.rootVisit_mem _, ?_, Or.inr ⟨hnone, hanchored.root_reached⟩⟩
    apply hq'.same
    · exact hanchored.rootAlias.trans hjoined.rootAlias.symm
    · exact hanchored.rootTable.trans hjoined.rootTable.symm

end Filters

section Orderings

/-- What orderings may name is read: all places of a query that is not paged, and those that are
reached by to-one steps of one that is. -/
def Orders (p : Planner) (relations : Relations) (scopes : Scopes) : Prop :=
  ∀ v ∈ relations.visits, (p.arguments.isPaged = true → Relations.reachedToOne v = true) →
    scopes.Reads v.label.aliasName (p.schema.table v.label.table)

theorem orderColumn_asked {path : Path} {named : Option String} {column : String} {e : Expr}
    (h : p.orderColumn relations p.arguments.isPaged path named column = .ok e) {scopes : Scopes}
    (hreads : columns → p.Orders relations scopes) :
    AllAsked columns clauses (e.collect (.sites c) scopes) := by
  obtain ⟨v, hplace, hpaged, found, hcolumn, rfl⟩ := orderColumn_inv h
  have hvisit : ∃ w ∈ relations.visits, w.label = v.label ∧
      Relations.reachedToOne w = Relations.reachedToOne v := by
    rcases hplace with ⟨_, rfl⟩ | ⟨name, _, hnamed⟩
    · exact ⟨relations.rootVisit, relations.rootVisit_mem, rfl, rfl⟩
    · exact ⟨v, List.mem_of_find?_eq_some hnamed, rfl, rfl⟩
  obtain ⟨w, hw, hlabel, hreached⟩ := hvisit
  intro site hsite
  rw [Expr.sites_columnOf, List.mem_singleton] at hsite
  rw [hsite, ← hlabel]
  rw [← hlabel] at hcolumn
  intro hasked
  refine hreads hasked w hw ?_ found (mem_of_findNamed hcolumn)
  intro hisPaged
  rw [hisPaged, Bool.true_and, ← hreached] at hpaged
  simpa using hpaged

theorem orderAction_asked (hs : p.schema.Sound) (htable : p.table ∈ p.schema.tables)
    (hwired : relations.Wired p.schema p.table) {field : Field} {action : Action}
    (h : p.orderAction relations field = .ok (some action)) {scopes : Scopes}
    (hreads : columns → p.Orders relations scopes) :
    AllAsked columns clauses (action.sites p.schema c scopes) := by
  have hroot : columns → scopes.Reads relations.root.aliasName (p.schema.table relations.root.table) :=
    fun hasked => hreads hasked _ relations.rootVisit_mem fun _ => hwired.root_reached
  cases asksOrder h with
  | column _ hexpr => exact orderColumn_asked hexpr hreads
  | @direction column _ hcolumn =>
    intro site hsite
    rw [Action.sites, Expr.sites_columnOf, List.mem_singleton] at hsite
    rw [hsite]
    intro hasked
    have hroot := hroot hasked
    rw [hwired.rootTable, hs.table_id htable] at hroot
    exact hroot column (Resolver.mem_of_column hcolumn)
  | dynamic =>
    intro site hsite
    rw [Action.sites, List.flatMap_cons] at hsite
    rcases List.mem_append.mp hsite with hfirst | hothers
    · obtain ⟨column, hcolumn, rfl⟩ := List.mem_map.mp hfirst
      exact fun hasked => hroot hasked column hcolumn
    · obtain ⟨target, htarget, hsite⟩ := List.mem_flatMap.mp hothers
      obtain ⟨v, hv, rfl⟩ := List.mem_map.mp htarget
      obtain ⟨column, hcolumn, rfl⟩ := List.mem_map.mp hsite
      obtain ⟨hmem, hallowed⟩ := List.mem_filter.mp hv
      intro hasked
      refine hreads hasked v (List.mem_of_mem_drop hmem) ?_ column hcolumn
      intro hpaged
      rw [canOrderBy, hpaged] at hallowed
      simpa using (Bool.and_eq_true_iff.mp hallowed).2

theorem orderItems_settles (hs : p.schema.Sound) (htable : p.table ∈ p.schema.tables)
    (hwired : relations.Wired p.schema p.table) {fields : List Field} {items : List OrderItem}
    (hd : d.Sound) (hrun : (p.orderItems relations fields).run d = .ok (items, d')) {scopes : Scopes}
    (hreads : columns → p.Orders relations scopes) :
    d'.Settles p.schema c columns clauses (orderItemsCollect (.sites c) scopes items) := by
  induction fields generalizing d items with
  | nil =>
    simp only [orderItems, run_pure_ok] at hrun
    obtain ⟨rfl, rfl⟩ := hrun
    exact Draft.settles_nil
  | cons field rest ih =>
    rcases orderItems_cons hrun with ⟨_, hrest⟩ | ⟨action, hole, between, others, hfound, hhole, hothers, rfl⟩
    · exact ih hd hrest
    · obtain ⟨hadmits, hplace⟩ := p.orderAction_admits hfound d
      have hsound := (rule_extends hd hadmits hhole).1.sound
      have hsettled : between.Settles p.schema c columns clauses
          [.hole action.place scopes hole] := rule_settles
        ((orderAction_asked hs htable hwired hfound hreads).settles d) hhole
      have hextends := (p.orderItems_extends hsound hothers).1
      rw [hplace] at hsettled
      rw [orderItemsCollect]
      intro site hsite
      rcases List.mem_cons.mp hsite with rfl | hother
      · exact hextends.settles hsettled _ (List.mem_singleton.mpr rfl)
      · exact ih hsound hothers site hother

end Orderings

section Queries

variable {q : Query}

theorem projectKey_settles (hs : p.schema.Sound) (htable : p.table ∈ p.schema.tables)
    {aliasName : String} (hq : d.Settles p.schema c columns clauses (q.collect (.sites c) outer))
    (hreads : columns → (q.scopes c outer).Reads aliasName p.table) :
    d.Settles p.schema c columns clauses ((p.projectKey q aliasName).collect (.sites c) outer) := by
  intro site hsite
  rcases (p.sites_projectKey q aliasName).2 site hsite with hold | ⟨column, hcolumn, rfl⟩
  · exact hq site hold
  · exact Site.settled_column.mpr fun hasked =>
      hreads hasked column (keyColumns_mem hs htable hcolumn)

theorem projectAll_settles (hs : p.schema.Sound) (htable : p.table ∈ p.schema.tables)
    (hwired : relations.Wired p.schema p.table)
    (hq : d.Settles p.schema c columns clauses (q.collect (.sites c) outer))
    (hreads : columns → ∀ r ∈ relations.all,
      (q.scopes c outer).Reads r.aliasName (p.schema.table r.table)) :
    d.Settles p.schema c columns clauses ((p.projectAll q relations).collect (.sites c) outer) := by
  intro site hsite
  rcases (p.sites_projectAll q relations).2 site hsite with hold | ⟨r, hr, projected, hprojected, rfl⟩
  · exact hq site hold
  · obtain ⟨column, hcolumn, _, hname⟩ := hs.columnName_of_owns
      ((hwired.placed htable hr).table_mem hs)
      (hwired.columns_owned hs htable hr projected hprojected)
    rw [hname]
    exact Site.settled_column.mpr fun hasked => hreads hasked r hr column hcolumn

theorem restrictAll_settles {filters : List Filter}
    (hfilters : ∀ filter ∈ filters, Aimed p c columns clauses d relations filter)
    (hq : d.Settles p.schema c columns clauses (q.collect (.sites c) outer))
    (hreads : columns → ∀ r ∈ relations.all,
      (q.scopes c outer).Reads r.aliasName (p.schema.table r.table)) :
    d.Settles p.schema c columns clauses ((filters.foldl
      (fun (q : Query) (filter : Filter) => q.restrict filter.expr) q).collect (.sites c) outer) := by
  intro site hsite
  rcases (sites_restrictAll filters q).2 site hsite with hold | ⟨filter, hfilter, hnew⟩
  · exact hq site hold
  · obtain ⟨v, hv, hnarrow, _⟩ := hfilters filter hfilter
    exact hnarrow _ (fun hasked => hreads hasked _ (Relations.label_mem_all hv)) site hnew

/-- Where everything is joined, every relation is read. -/
theorem Joined.reads_all {source : Source}
    (h : Joined p c columns clauses d outer relations (fun _ => true) relations.visits source)
    (hcolumns : columns) : ∀ r ∈ relations.all,
      Scopes.Reads (source.offers c :: outer) r.aliasName (p.schema.table r.table) := by
  intro r hr
  obtain ⟨v, hv, rfl⟩ := Relations.exists_visit hr
  exact h.reads hcolumns hv hv rfl

theorem reads_root (hs : p.schema.Sound) (htable : p.table ∈ p.schema.tables)
    (hwired : relations.Wired p.schema p.table) {scopes : Scopes}
    (h : scopes.Reads relations.root.aliasName (p.schema.table relations.root.table)) :
    scopes.Reads relations.root.aliasName p.table := by
  rw [hwired.rootTable, hs.table_id htable] at h
  exact h

theorem pageBound_sites {argument : Option Field} {bound : Option Expr}
    (hrun : (pageBound argument).run d = .ok (bound, d')) (scopes : Scopes) :
    optionalCollect (.sites c) scopes bound = [] := by
  cases argument with
  | none =>
    simp only [pageBound, run_pure_ok] at hrun
    obtain ⟨rfl, rfl⟩ := hrun
    rfl
  | some field =>
    simp only [pageBound, run_bind_ok, run_pure_ok] at hrun
    obtain ⟨name, between, _, rfl, rfl⟩ := hrun
    rw [optionalCollect, Expr.collect, Collector.sites_param]

/-- A page asks for the key of the root besides what the query asks for. -/
theorem page_settles (hs : p.schema.Sound) (htable : p.table ∈ p.schema.tables) {paged : Query}
    {aliasName : String} (hd : d.Sound)
    (hq : d.Settles p.schema c columns clauses (q.collect (.sites c) outer))
    (hreads : columns → (q.scopes c outer).Reads aliasName p.table)
    (hrun : (p.page q aliasName).run d = .ok (paged, d')) :
    d.Extends [] d' ∧ paged.projection = q.projection ∧
      d'.Settles p.schema c columns clauses (paged.collect (.sites c) outer) := by
  simp only [page, run_bind_ok, run_pure_ok] at hrun
  obtain ⟨offset, between, hoffset, fetch, after, hfetch, rfl, rfl⟩ := hrun
  have hfirst := (pageBound_extends hd hoffset).1
  have hextends := hfirst.trans (pageBound_extends hfirst.sound hfetch).1
  refine ⟨hextends, rfl, ?_⟩
  apply hextends.settles
  intro site hsite
  have hsites := (Query.mem_collect_page q _ _ _ hsite).resolve_left List.not_mem_nil
  rw [pageBound_sites hoffset, pageBound_sites hfetch, orderItemsCollect_append, List.mem_append]
    at hsites
  rcases hsites with hold | (horder | hkey) | hnone | hnone
  · exact hq site hold
  · exact hq site (Query.mem_collect_of_orderBy horder)
  · exact (keyTerms_asked hs htable hreads site hkey).settled
  · cases hnone
  · cases hnone

theorem countQuery_settles (hs : p.schema.Sound) (hc : c.Knows p.schema)
    (htable : p.table ∈ p.schema.tables) (hwired : relations.Wired p.schema p.table)
    {filters : List Filter}
    (hfilters : ∀ filter ∈ filters, Aimed p c columns clauses d relations filter) :
    d.Settles p.schema c columns clauses ((p.countQuery relations filters).collect (.sites c) []) := by
  have hjoined : Joined p c columns clauses d [] relations (fun _ => true) relations.visits
      (p.fromClause relations fun _ => true) := joined_fromClause hs hc htable hwired fun _ _ _ _ => rfl
  have hbase : d.Settles p.schema c columns clauses
      ((Query.reading (p.fromClause relations fun _ => true)).collect (.sites c) []) :=
    reading_settles (fun _ => apart_fromClause hwired _) hjoined.parts
  have hroot : columns → Scopes.Reads [(p.fromClause relations fun _ => true).offers c]
      relations.root.aliasName p.table :=
    fun hasked => reads_root hs htable hwired (hjoined.reads_all hasked _ relations.root_mem_all)
  rw [countQuery]
  intro site hsite
  rw [Query.mem_collect_project, Query.collect_reading, Source.collect_eq, Source.partsCollect_of,
    Factor.collect, Expr.collect] at hsite
  rcases hsite with hderived | hnone
  · rcases List.mem_cons.mp hderived with rfl | hinner
    · exact Site.settled_clause.mpr fun _ => List.nodup_singleton _
    · revert site
      split
      · intro site _ hinner
        refine restrictAll_settles hfilters ?_ ?_ site hinner
        · exact projectKey_settles hs htable hbase hroot
        · intro hasked
          rw [(p.sites_projectKey _ _).1]
          exact hjoined.reads_all hasked
      · intro site _ hinner
        refine restrictAll_settles hfilters ?_ ?_ site hinner
        · intro site hsite
          rw [Query.mem_collect_project, Expr.collect] at hsite
          rcases hsite with hold | hnone
          · exact hbase site hold
          · cases hnone
        · exact hjoined.reads_all
  · cases hnone

/-- All relations projected, filtered and ordered. -/
theorem output_settles (hs : p.schema.Sound) (htable : p.table ∈ p.schema.tables)
    (hwired : relations.Wired p.schema p.table) {source : Source} {filters : List Filter}
    {order : List OrderItem} (hapart : clauses → Apart source.aliases)
    (hjoined : Joined p c columns clauses d [] relations (fun _ => true) relations.visits source)
    (hfilters : ∀ filter ∈ filters, Aimed p c columns clauses d relations filter)
    (horder : d.Settles p.schema c columns clauses
      (orderItemsCollect (.sites c) [source.offers c] order)) :
    d.Settles p.schema c columns clauses (Query.collect (.sites c) [] { filters.foldl
      (fun (q : Query) (filter : Filter) => q.restrict filter.expr)
      (p.projectAll (Query.reading source) relations) with orderBy := order }) := by
  let base := p.projectAll (Query.reading source) relations
  let filtered := filters.foldl (fun (q : Query) (filter : Filter) => q.restrict filter.expr) base
  have hscopes : base.scopes c [] = [source.offers c] := (p.sites_projectAll _ relations).1
  have hsame : filtered.scopes c [] = base.scopes c [] := (sites_restrictAll filters base).1
  have hbase : d.Settles p.schema c columns clauses (base.collect (.sites c) []) :=
    projectAll_settles hs htable hwired (reading_settles hapart hjoined.parts) hjoined.reads_all
  have hfiltered : d.Settles p.schema c columns clauses (filtered.collect (.sites c) []) :=
    restrictAll_settles hfilters hbase fun hasked => hscopes ▸ hjoined.reads_all hasked
  intro site hsite
  rcases (filtered.mem_collect_ordered order hsite).resolve_left List.not_mem_nil with hold | hnew
  · exact hfiltered site hold
  · rw [Query.inside_sites, hsame, hscopes] at hnew
    exact horder site hnew

theorem plainQuery_settles (hs : p.schema.Sound) (hc : c.Knows p.schema)
    (htable : p.table ∈ p.schema.tables) (hwired : relations.Wired p.schema p.table)
    {filters : List Filter} {order : List OrderItem} {query : Query} (hd : d.Sound)
    (hfilters : ∀ filter ∈ filters, Aimed p c columns clauses d relations filter)
    (horder : ∀ scopes : Scopes, (columns → p.Orders relations scopes) →
      d.Settles p.schema c columns clauses (orderItemsCollect (.sites c) scopes order))
    (hrun : (p.plainQuery relations filters order).run d = .ok (query, d')) :
    d'.Settles p.schema c columns clauses (query.collect (.sites c) []) := by
  have hjoined : Joined p c columns clauses d [] relations (fun _ => true) relations.visits
      (p.fromClause relations fun _ => true) := joined_fromClause hs hc htable hwired fun _ _ _ _ => rfl
  have hordered := output_settles hs htable hwired (fun _ => apart_fromClause hwired _) hjoined
    hfilters (horder _ fun hasked v hv _ =>
      hjoined.reads_all hasked _ (Relations.label_mem_all hv))
  have hscopes : (filters.foldl (fun (q : Query) (filter : Filter) => q.restrict filter.expr)
      (p.projectAll (Query.reading (p.fromClause relations fun _ => true)) relations)).scopes c [] =
        [(p.fromClause relations fun _ => true).offers c] :=
    (sites_restrictAll filters _).1.trans (p.sites_projectAll _ relations).1
  rcases plainQuery_cases hrun with ⟨_, hpage⟩ | ⟨_, rfl, rfl⟩
  · refine (page_settles hs htable hd hordered (fun hasked => ?_) hpage).2.2
    have hroot := hjoined.reads_all hasked _ relations.root_mem_all
    rw [← hscopes] at hroot
    exact reads_root hs htable hwired hroot
  · exact hordered

end Queries

end Planner

end ShapeSql
