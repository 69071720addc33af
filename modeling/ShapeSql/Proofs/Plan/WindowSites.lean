import ShapeSql.Proofs.Plan.SelectSites

namespace ShapeSql

open Sql Planning

variable {c : Catalog} {columns clauses : Prop} {d d' : Draft} {outer : Scopes}

namespace Planner

variable {p : Planner} {relations : Relations}

/-- Nothing is embedded on the way to a relation that a filter names. -/
def FlatTo (relations : Relations) (filters : List Filter) : Prop :=
  ∀ filter ∈ filters, ∀ v ∈ relations.visits, filter.target = some v.label.id →
    ∀ u ∈ relations.manySteps v, u.label.isEmbedded = false

/-- Within a window, what is reached by to-one steps is read. -/
def ReadsToOne (p : Planner) (relations : Relations) (scopes : Scopes) : Prop :=
  ∀ v ∈ relations.visits, Relations.reachedToOne v = true →
    scopes.Reads v.label.aliasName (p.schema.table v.label.table)

section Exists

/-- A condition on the last of some steps, asked for where the steps set out. -/
def existsBelow (p : Planner) (condition : Expr) : List (Tree.Visit Relation) → Expr
  | [] => condition
  | first :: rest =>
    .exists (((probe (rest.foldl (fun source v =>
      source.join .inner (p.factor v.label) (p.joinCondition v)) (.of (p.factor first.label)))).restrict
        (p.joinCondition first)).restrict condition) false

/-- The way to a place that is found by its number are the steps that may lead to several rows. -/
theorem existsAlong_eq (hwired : relations.Wired p.schema p.table) {v : Tree.Visit Relation}
    (hv : v ∈ relations.visits) (condition : Expr) :
    p.existsAlong relations v.label.id condition =
      p.existsBelow condition (relations.manySteps v) := by
  have hsteps : (((((relations.visit? v.label.id).map Tree.Visit.lineage).getD []).filterMap
      fun r => relations.visit? r.id).takeWhile fun v => !Relations.reachedToOne v).reverse =
        relations.manySteps v := by
    rw [hwired.visit?_id hv]
    rfl
  unfold existsAlong
  simp only
  rw [hsteps]
  cases relations.manySteps v with
  | nil => rfl
  | cons first rest => rfl

/-- The row sources of a chain, the first of which is tied to the query around. -/
theorem chain_joined (hs : p.schema.Sound) (hc : c.Knows p.schema) (htable : p.table ∈ p.schema.tables)
    (hwired : relations.Wired p.schema p.table) {first : Tree.Visit Relation}
    {rest : List (Tree.Visit Relation)} (hfirst : first ∈ relations.visits)
    (hchain : Relations.Chain p.schema relations first rest) (scopes : Scopes) :
    Joined p c columns clauses d scopes relations (fun _ => true) (first :: rest)
      (rest.foldl (fun source v => source.join .inner (p.factor v.label) (p.joinCondition v))
        (.of (p.factor first.label))) := by
  have hjoined : Joined p c columns clauses d scopes relations (fun _ => true) ([first] ++ rest) _ :=
    Joined.fold (fun _ => true) (fun _ => true) hs hc htable hwired (fun _ _ _ _ => rfl)
    (fun _ _ => rfl) (fun _ _ _ h => nomatch h)
    (fun v hv => by
      rw [List.mem_singleton.mp hv]
      exact hfirst)
    hchain.mem_visits (hchain.ordered (List.mem_singleton.mpr rfl)) .inner
    (joined_of hs hc htable hwired hfirst)
  simp only [↓reduceIte, List.singleton_append] at hjoined
  exact hjoined

/-- The condition on a collection, asked for along the steps that lead to it. -/
theorem existsAlong_settles (hs : p.schema.Sound) (hc : c.Knows p.schema)
    (htable : p.table ∈ p.schema.tables) (hwired : relations.Wired p.schema p.table)
    {v : Tree.Visit Relation} (hv : v ∈ relations.visits)
    (hflat : clauses → ∀ w ∈ relations.manySteps v, w.label.isEmbedded = false)
    {condition : Expr} (hcondition : Narrow p c columns clauses d v.label condition)
    {scopes : Scopes} (hreads : columns → ReadsToOne p relations scopes) :
    d.Settles p.schema c columns clauses
      ((p.existsAlong relations v.label.id condition).collect (.sites c) scopes) := by
  obtain ⟨start, hstart, htoOne, hchain, hlast⟩ := hwired.manySteps_chain hv
  rw [existsAlong_eq hwired hv]
  cases hmany : relations.manySteps v with
  | nil =>
    rw [hmany] at hlast
    have hsame : start = v := hlast
    exact hcondition scopes fun hasked => hsame ▸ hreads hasked start hstart htoOne
  | cons first rest =>
    rw [hmany] at hchain hlast hflat
    obtain ⟨hfirst, hbelow, hrest⟩ := hchain
    have hjoined : Joined p c columns clauses d scopes relations (fun _ => true) (first :: rest) _ :=
      chain_joined hs hc htable hwired hfirst hrest scopes
    have hcollection : v ∈ first :: rest := Relations.Chain.last_mem hlast
    refine exists_settles ?_ hjoined.parts (AllAsked.settles ?_ d) ?_
    · intro hasked
      rw [aliases_foldl_join, Source.aliases_of, Apart, List.map_append, List.map_map]
      have hchain : Relations.Chain p.schema relations start (first :: rest) :=
        ⟨hfirst, hbelow, hrest⟩
      exact hchain.nodup_names hwired (hflat hasked)
    · apply joinCondition_asked hs htable hwired hfirst hstart hbelow
      · intro hasked
        exact reads_of_serves (hjoined.serves hasked) (Relations.label_mem_all hstart)
          (Or.inr (hreads hasked start hstart htoOne))
      · exact fun hasked => hjoined.reads hasked List.mem_cons_self hfirst rfl
    · exact hcondition _ fun hasked => hjoined.reads hasked hcollection hv rfl

end Exists

section Window

variable {q : Query}

theorem windowFilters_projection (c : Catalog) (outer : Scopes) (p : Planner) (relations : Relations) (filters : List Filter)
    (q : Query) :
    (filters.foldl (p.windowFilter relations) q).projection = q.projection ∧
      (filters.foldl (p.windowFilter relations) q).scopes c outer = q.scopes c outer := by
  induction filters generalizing q with
  | nil => exact ⟨rfl, rfl⟩
  | cons filter filters ih =>
    have hstep : (p.windowFilter relations q filter).projection = q.projection ∧
        (p.windowFilter relations q filter).scopes c outer = q.scopes c outer := by
      unfold windowFilter
      split
      · split
        · exact ⟨rfl, rfl⟩
        · exact ⟨rfl, rfl⟩
      · exact ⟨rfl, rfl⟩
    rw [List.foldl_cons]
    exact ⟨(ih _).1.trans hstep.1, (ih _).2.trans hstep.2⟩

theorem projectKey_projection (p : Planner) (q : Query) (aliasName : String) :
    ∀ column ∈ p.table.keyColumns, column.name ∈
      (p.projectKey q aliasName).projection.filterMap Projected.aliasName := by
  have hfold : ∀ (key : List Column) (q : Query),
      (key.foldl (fun (q : Query) (column : Column) =>
        q.project (.columnOf aliasName column.name) (some column.name)) q).projection =
        q.projection ++ key.map fun column =>
          ⟨.columnOf aliasName column.name, some column.name⟩ := by
    intro key
    induction key with
    | nil => exact fun q => (List.append_nil _).symm
    | cons column key ih =>
      intro q
      rw [List.foldl_cons, ih, Query.project, List.append_assoc]
      rfl
  intro column hcolumn
  rw [projectKey, hfold]
  apply List.mem_filterMap.mpr
  exact ⟨_, List.mem_append_right _ (List.mem_map_of_mem hcolumn), rfl⟩

/-- In the window a filter reads the relation that it names, or a row of the collection. -/
theorem windowFilters_settles (hs : p.schema.Sound) (hc : c.Knows p.schema)
    (htable : p.table ∈ p.schema.tables) (hwired : relations.Wired p.schema p.table)
    {filters : List Filter}
    (hflat : clauses → FlatTo relations filters)
    (hfilters : ∀ filter ∈ filters, Aimed p c columns clauses d relations filter)
    (hq : d.Settles p.schema c columns clauses (q.collect (.sites c) outer))
    (hreads : columns → ReadsToOne p relations (q.scopes c outer)) :
    d.Settles p.schema c columns clauses
      ((filters.foldl (p.windowFilter relations) q).collect (.sites c) outer) := by
  induction filters generalizing q with
  | nil => exact hq
  | cons filter filters ih =>
    rw [List.forall_mem_cons] at hfilters
    obtain ⟨⟨v, hv, hnarrow, htarget⟩, hothers⟩ := hfilters
    have hrestrict : ∀ e : Expr, d.Settles p.schema c columns clauses
        (e.collect (.sites c) (q.scopes c outer)) →
          d.Settles p.schema c columns clauses ((q.restrict e).collect (.sites c) outer) := by
      intro e he site hsite
      rcases (Query.mem_collect_restrict _ _).mp hsite with hold | hnew
      · exact hq site hold
      · exact he site hnew
    have hstep : d.Settles p.schema c columns clauses
        ((p.windowFilter relations q filter).collect (.sites c) outer) := by
      unfold windowFilter
      rcases htarget with hid | ⟨hnone, hreached⟩
      · rw [hid]
        simp only
        split
        · rename_i htoOne
          rw [Relations.isToOne, hwired.visit?_id hv] at htoOne
          exact hrestrict _ (hnarrow _ fun hasked => hreads hasked v hv htoOne)
        · apply hrestrict
          apply existsAlong_settles hs hc htable hwired hv _ hnarrow hreads
          exact fun hasked => hflat hasked filter List.mem_cons_self v hv hid
      · rw [hnone]
        exact hrestrict _ (hnarrow _ fun hasked => hreads hasked v hv hreached)
    have hscopes : (p.windowFilter relations q filter).scopes c outer = q.scopes c outer :=
      (windowFilters_projection c outer p relations [filter] q).2
    rw [List.foldl_cons]
    refine ih ?_ hothers hstep (hscopes ▸ hreads)
    exact fun hasked other hother => hflat hasked other (List.mem_cons_of_mem _ hother)

/-- The keys of the roots that pass, ordered: the inside of a window before it is paged. -/
theorem windowKeys_settles (columns clauses : Prop) (hs : p.schema.Sound) (hc : c.Knows p.schema)
    (htable : p.table ∈ p.schema.tables) (hwired : relations.Wired p.schema p.table)
    {filters : List Filter} {order : List OrderItem}
    (hflat : clauses → FlatTo relations filters)
    (hfilters : ∀ filter ∈ filters, Aimed p c columns clauses d relations filter)
    (horder : ∀ scopes : Scopes, (columns → p.Orders relations scopes) →
      d.Settles p.schema c columns clauses (orderItemsCollect (.sites c) scopes order))
    (hpaged : p.arguments.isPaged = true) {inner : Query}
    (hinner : inner = filters.foldl (p.windowFilter relations) (p.projectKey
      (Query.reading (p.fromClause relations Relations.reachedToOne)) relations.root.aliasName)) :
    d.Settles p.schema c columns clauses (Query.collect (.sites c) [] { inner with orderBy := order }) ∧
      (columns → (inner.scopes c []).Reads relations.root.aliasName p.table) ∧
        ∀ column ∈ p.table.keyColumns,
          column.name ∈ inner.projection.filterMap Projected.aliasName := by
  have hjoined : Joined p c columns clauses d [] relations Relations.reachedToOne relations.visits
      (p.fromClause relations Relations.reachedToOne) :=
    joined_fromClause hs hc htable hwired fun _ _ => Relations.reachedToOne_of_below
  let start := Query.reading (p.fromClause relations Relations.reachedToOne)
  let keys := p.projectKey start relations.root.aliasName
  obtain ⟨hprojection, hsame⟩ :=
    windowFilters_projection c [] p relations filters keys
  have hscopes : keys.scopes c [] = start.scopes c [] := (p.sites_projectKey _ _).1
  have htoOne : columns → ReadsToOne p relations (start.scopes c []) :=
    fun hasked v hv hreached => hjoined.reads hasked hv hv hreached
  have hroot : columns → (start.scopes c []).Reads relations.root.aliasName p.table :=
    fun hasked => reads_root hs htable hwired
      (htoOne hasked _ relations.rootVisit_mem hwired.root_reached)
  have hkeys : d.Settles p.schema c columns clauses (keys.collect (.sites c) []) :=
    projectKey_settles hs htable
      (reading_settles (fun _ => apart_fromClause hwired _) hjoined.parts) hroot
  rw [← hscopes] at htoOne hroot
  rw [hinner]
  refine ⟨?_, ?_, ?_⟩
  · intro site hsite
    rcases (Query.mem_collect_ordered _ order hsite).resolve_left List.not_mem_nil with hold | hnew
    · exact windowFilters_settles hs hc htable hwired hflat hfilters hkeys htoOne site hold
    · refine horder _ ?_ site hnew
      intro hasked v hv hallowed
      rw [Query.inside_sites, hsame]
      exact htoOne hasked v hv (hallowed hpaged)
  · rw [hsame]
    exact hroot
  · rw [hprojection]
    exact p.projectKey_projection _ _

theorem keyWindow_settles (hs : p.schema.Sound) (hc : c.Knows p.schema)
    (htable : p.table ∈ p.schema.tables) (hwired : relations.Wired p.schema p.table)
    {filters : List Filter} {order : List OrderItem} {query : Query} (hd : d.Sound)
    (hother : columns ∨ clauses → ∀ r ∈ relations.all, sameName p.windowAlias r.aliasName = false)
    (hflat : clauses → FlatTo relations filters)
    (hfilters : ∀ filter ∈ filters, Aimed p c columns clauses d relations filter)
    (horder : ∀ scopes : Scopes, (columns → p.Orders relations scopes) →
      d.Settles p.schema c columns clauses (orderItemsCollect (.sites c) scopes order))
    (hpaged : p.arguments.isPaged = true)
    (hrun : (p.keyWindow relations filters order).run d = .ok (query, d')) :
    d'.Settles p.schema c columns clauses (query.collect (.sites c) []) := by
  unfold keyWindow at hrun
  split at hrun
  · simp only [run_bind_ok, run_throw_ok, false_and, exists_false] at hrun
  · simp only [run_bind_ok, run_pure_ok] at hrun
    obtain ⟨window, after, hwindow, rfl, rfl⟩ := hrun
    obtain ⟨hinner, hkey, hnames⟩ := windowKeys_settles columns clauses hs hc
      htable hwired hflat hfilters horder hpaged rfl
    obtain ⟨hextends, hprojection, hpage⟩ := page_settles hs htable hd hinner hkey hwindow
    have hlead : Joined p c columns clauses after [] relations (fun _ => true)
        [relations.rootVisit] _ :=
      joined_lead (.derived window p.windowAlias) hs hc htable hwired
        (fun hasked => hother (Or.inl hasked))
        (fun _ column hcolumn => by
          show column.name ∈ window.projection.filterMap Projected.aliasName
          rw [hprojection]
          exact hnames column hcolumn) hpage
    have hjoined := hlead.all hs hc htable hwired (fun _ _ _ _ => rfl) .left
    apply output_settles hs htable hwired _ hjoined
    · intro filter hfilter
      exact (hfilters filter (List.mem_of_mem_filter hfilter)).later hextends
    · rw [orderItemsCollect_append]
      refine Draft.settles_append.mpr ⟨hextends.settles (horder _ ?_), AllAsked.settles ?_ _⟩
      · exact fun hasked v hv _ => hjoined.reads_all hasked _ (Relations.label_mem_all hv)
      · exact keyTerms_asked hs htable fun hasked =>
          reads_root hs htable hwired (hjoined.reads_all hasked _ relations.root_mem_all)
    · intro hasked
      apply apart_joinAll hwired .left _ [p.windowAlias] rfl (List.nodup_singleton _)
      intro name hname
      rw [List.mem_singleton.mp hname]
      exact hother (Or.inr hasked)

/-- What is asked of a select is true, as far as the names that it makes up are no relation's. -/
theorem select_settles (hs : p.schema.Sound) (hkeyed : p.schema.Keyed) (hc : c.Knows p.schema)
    (htable : p.table ∈ p.schema.tables) {query : Query} {relations : Relations}
    (hrun : p.select.run default = .ok ((query, relations), d'))
    (hspared : columns → ∀ r ∈ relations.all, (default : Draft).Spares r.aliasName)
    (hother : columns ∨ clauses → p.arguments.isPaged = true → relations.hasJoins = true →
      ∀ r ∈ relations.all, sameName p.windowAlias r.aliasName = false)
    (hflat : clauses → p.arguments.isPaged = true →
      ∀ filters between, p.Selects filters relations between → FlatTo relations filters) :
    d'.Settles p.schema c columns clauses (query.collect (.sites c) []) := by
  obtain ⟨start, filters, joined, order, between, after, houtput, hfilters, hrelations, horder, hquery⟩ :=
    p.select_inv hrun
  subst hrelations
  have hd : (default : Draft).Sound := Draft.sound_default
  have hsound := (p.selectFilters_extends hd hfilters).1.sound
  have hsorted := (p.orderItems_extends hsound horder).1
  obtain ⟨hwired, haimed⟩ := selectFilters_aimed columns clauses hs hkeyed hc
    htable hd (outputRelations_wired hs hkeyed htable houtput) hfilters hspared
  have hkept : ∀ filter ∈ filters,
      Aimed p c columns clauses after (joined.anchorKeys p.schema) filter :=
    fun filter hfilter => (haimed filter hfilter).later hsorted
  have hordering : ∀ scopes : Scopes, (columns → p.Orders (joined.anchorKeys p.schema) scopes) →
      after.Settles p.schema c columns clauses (orderItemsCollect (.sites c) scopes order) :=
    fun scopes => orderItems_settles hs htable hwired hsound horder
  rcases hquery with ⟨_, _, rfl, rfl⟩ | ⟨_, hpaged, hjoins, hwindow⟩ | ⟨_, _, hplain⟩
  · exact countQuery_settles hs hc htable hwired hkept
  · refine keyWindow_settles hs hc htable hwired hsorted.sound
      (fun hasked => hother hasked hpaged hjoins) ?_ hkept hordering hpaged hwindow
    exact fun hasked => hflat hasked hpaged filters between ⟨start, joined, houtput, hfilters, rfl⟩
  · exact plainQuery_settles hs hc htable hwired hsorted.sound hkept hordering hplain

end Window

end Planner

end ShapeSql
