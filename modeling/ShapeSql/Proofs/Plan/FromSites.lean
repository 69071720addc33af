import ShapeSql.Proofs.Plan.FilterSites
import ShapeSql.Proofs.Relation.Visits

namespace ShapeSql

open Sql

variable {c : Catalog} {columns clauses : Prop} {d : Draft} {outer : Scopes}

theorem Relation.Placed.table_mem {s : Schema} (hs : s.Sound) {r : Relation} (h : r.Placed s) :
    s.table r.table ∈ s.tables := by
  obtain ⟨t, ht, hid⟩ := h
  rw [← hid, hs.table_id ht]
  exact ht

/-- A row source has every column of the relations that go by its name. -/
def Sql.Offer.Serves (s : Schema) (relations : Relations) (o : Offer) : Prop :=
  ∀ r ∈ relations.all, sameName o.aliasName r.aliasName = true →
    ∀ column ∈ (s.table r.table).columns, column.name ∈ o.columns

/-- One of the row sources goes by the name of the relation. -/
def Sql.Offered (scope : List Offer) (r : Relation) : Prop :=
  ∃ o ∈ scope, sameName o.aliasName r.aliasName = true

theorem Sql.Offered.append {scope more : List Offer} {r : Relation} (h : Offered scope r) :
    Offered (scope ++ more) r := by
  obtain ⟨o, ho, hname⟩ := h
  exact ⟨o, List.mem_append_left _ ho, hname⟩

/-- The columns of a relation are read where its name is in scope, near or further out. -/
theorem reads_of_serves {s : Schema} {relations : Relations} {scope : List Offer}
    (hserves : ∀ o ∈ scope, o.Serves s relations) {r : Relation} (hr : r ∈ relations.all)
    (h : Offered scope r ∨ outer.Reads r.aliasName (s.table r.table)) :
    Scopes.Reads (scope :: outer) r.aliasName (s.table r.table) := by
  intro column hcolumn
  unfold Scopes.Resolve
  split
  · exact fun o ho hname => hserves o ho r hr hname column hcolumn
  · rename_i hnone
    rcases h with ⟨o, ho, hname⟩ | houter
    · exact absurd (List.any_eq_true.mpr ⟨o, ho, hname⟩) hnone
    · exact houter column hcolumn

namespace Planner

variable {p : Planner} {relations : Relations}

theorem offer_factor (hs : p.schema.Sound) (hc : c.Knows p.schema) {r : Relation}
    (hr : r.Placed p.schema) : (p.factor r).offer c =
      ⟨r.aliasName, (p.schema.table r.table).columns.map Column.name⟩ :=
  hc.offer (hr.table_mem hs) r.aliasName

/-- A relation's row source serves all relations: those of its name have its table. -/
theorem factor_serves (hs : p.schema.Sound) (hc : c.Knows p.schema) (htable : p.table ∈ p.schema.tables)
    (hwired : relations.Wired p.schema p.table) {r : Relation} (hr : r ∈ relations.all) :
    ((p.factor r).offer c).Serves p.schema relations := by
  intro q hq hname column hcolumn
  rw [offer_factor hs hc (hwired.placed htable hr)] at hname ⊢
  rw [← hwired.table_of_sameName hr hq hname] at hcolumn
  exact List.mem_map_of_mem hcolumn

/-- A FROM clause that relations were joined to so far: those of the visits that are accepted have a
row source. -/
structure Joined (p : Planner) (c : Catalog) (columns clauses : Prop) (d : Draft) (outer : Scopes)
    (relations : Relations) (accepts : Tree.Visit Relation → Bool)
    (seen : List (Tree.Visit Relation)) (source : Source) : Prop where
  serves : columns → ∀ o ∈ source.offers c, o.Serves p.schema relations
  named : columns → ∀ v ∈ seen, accepts v = true → Offered (source.offers c) v.label
  parts : d.Settles p.schema c columns clauses (source.partsCollect (.sites c) outer)

section Joined

variable {accepts : Tree.Visit Relation → Bool} {seen vs : List (Tree.Visit Relation)}
  {source : Source} {v w : Tree.Visit Relation}

/-- Within the query, accepted relations are read. -/
theorem Joined.reads (h : Joined p c columns clauses d outer relations accepts seen source)
    (hcolumns : columns) (hv : v ∈ seen) (hmem : v ∈ relations.visits) (haccepts : accepts v = true) :
    Scopes.Reads (source.offers c :: outer) v.label.aliasName (p.schema.table v.label.table) :=
  reads_of_serves (h.serves hcolumns) (Relations.label_mem_all hmem)
    (Or.inl (h.named hcolumns v hv haccepts))

/-- The condition on a place and the one above it asks for columns of theirs. -/
theorem joinCondition_asked (hs : p.schema.Sound) (htable : p.table ∈ p.schema.tables)
    (hwired : relations.Wired p.schema p.table) (hv : v ∈ relations.visits)
    (hw : w ∈ relations.visits) (hbelow : Relations.Below p.schema w v) {scopes : Scopes}
    (habove : columns → scopes.Reads w.label.aliasName (p.schema.table w.label.table))
    (hown : columns → scopes.Reads v.label.aliasName (p.schema.table v.label.table)) :
    AllAsked columns clauses ((p.joinCondition v).collect (.sites c) scopes) := by
  obtain ⟨hancestors, hunder⟩ := hbelow
  have hparent : v.parent?.getD v.label = w.label := by
    rw [Tree.Visit.parent?, hancestors]
    rfl
  rw [joinCondition, hparent]
  exact pairEq_asked hs ((hwired.placed htable (Relations.label_mem_all hw)).table_mem hs)
    ((hwired.placed htable (Relations.label_mem_all hv)).table_mem hs) hunder.pairs habove hown

/-- One more relation is joined below one that has a row source. -/
theorem Joined.join (hs : p.schema.Sound) (hc : c.Knows p.schema) (htable : p.table ∈ p.schema.tables)
    (hwired : relations.Wired p.schema p.table)
    (h : Joined p c columns clauses d outer relations accepts seen source) (kind : JoinKind)
    (hv : v ∈ relations.visits) (hw : w ∈ seen) (hmem : w ∈ relations.visits)
    (hbelow : Relations.Below p.schema w v) (haccepts : accepts w = true) :
    Joined p c columns clauses d outer relations accepts (seen ++ [v])
      (source.join kind (p.factor v.label) (p.joinCondition v)) := by
  have hserves : columns → ∀ o ∈ source.offers c ++ [(p.factor v.label).offer c],
      o.Serves p.schema relations := by
    intro hcolumns o ho
    rcases List.mem_append.mp ho with hold | hnew
    · exact h.serves hcolumns o hold
    · rw [List.mem_singleton.mp hnew]
      exact factor_serves hs hc htable hwired (Relations.label_mem_all hv)
  have hself : Offered (source.offers c ++ [(p.factor v.label).offer c]) v.label :=
    ⟨_, List.mem_append_right _ (List.mem_singleton.mpr rfl), by
      rw [Factor.aliasName_offer]
      exact sameName_self _⟩
  exact {
    serves := by
      rw [Source.offers_join]
      exact hserves
    named := by
      intro hcolumns x hx hx'
      rw [Source.offers_join]
      rcases List.mem_append.mp hx with hold | hnew
      · exact (h.named hcolumns x hold hx').append
      · rw [List.mem_singleton.mp hnew]
        exact hself
    parts := by
      rw [Source.partsCollect_join, Source.inside_sites, collect_factor, List.nil_append]
      refine Draft.settles_append.mpr ⟨h.parts, AllAsked.settles ?_ d⟩
      apply joinCondition_asked hs htable hwired hv hmem hbelow
      · intro hcolumns
        exact reads_of_serves (hserves hcolumns) (Relations.label_mem_all hmem)
          (Or.inl (h.named hcolumns w hw haccepts).append)
      · intro hcolumns
        exact reads_of_serves (hserves hcolumns) (Relations.label_mem_all hv) (Or.inl hself) }

/-- A place that is embedded in one that has a row source has that one. -/
theorem Joined.embed (h : Joined p c columns clauses d outer relations accepts seen source)
    (hw : w ∈ seen) (hbelow : Relations.Below p.schema w v)
    (hshown : accepts v = true → accepts w = true ∧ v.label.kind = .embedded) :
    Joined p c columns clauses d outer relations accepts (seen ++ [v]) source where
  serves := h.serves
  named := by
    intro hcolumns x hx hx'
    rcases List.mem_append.mp hx with hold | hnew
    · exact h.named hcolumns x hold hx'
    · rw [List.mem_singleton.mp hnew] at hx' ⊢
      obtain ⟨hup, hkind⟩ := hshown hx'
      obtain ⟨_, halias, _⟩ := hbelow.2.embedded hkind
      obtain ⟨o, ho, hname⟩ := h.named hcolumns w hw hup
      exact ⟨o, ho, halias ▸ hname⟩
  parts := h.parts

/-- Joining relations, parents before children, leaves out none that is accepted but the embedded
ones. -/
theorem Joined.fold (accepts takes : Tree.Visit Relation → Bool) (hs : p.schema.Sound)
    (hc : c.Knows p.schema) (htable : p.table ∈ p.schema.tables)
    (hwired : relations.Wired p.schema p.table)
    (hup : ∀ w v, Relations.Below p.schema w v → accepts v = true → accepts w = true)
    (htakes : ∀ v, takes v = true → accepts v = true)
    (hleft : ∀ v ∈ vs, accepts v = true → takes v = false → v.label.kind = .embedded)
    (hseen : ∀ v ∈ seen, v ∈ relations.visits) (hvs : ∀ v ∈ vs, v ∈ relations.visits)
    (hordered : Relations.Ordered p.schema seen vs) (kind : JoinKind)
    (h : Joined p c columns clauses d outer relations accepts seen source) :
    Joined p c columns clauses d outer relations accepts (seen ++ vs)
      (vs.foldl (fun source v =>
        if takes v then source.join kind (p.factor v.label) (p.joinCondition v) else source)
        source) := by
  induction vs generalizing seen source with
  | nil =>
    rw [List.append_nil]
    exact h
  | cons v vs ih =>
    obtain ⟨⟨w, hw, hbelow⟩, hrest⟩ := hordered
    rw [List.forall_mem_cons] at hleft hvs
    have hmore : ∀ x ∈ seen ++ [v], x ∈ relations.visits :=
      List.forall_mem_append.mpr ⟨hseen, List.forall_mem_singleton.mpr hvs.1⟩
    rw [List.foldl_cons, List.append_cons]
    refine ih hleft.2 hmore hvs.2 hrest ?_
    cases htaken : takes v with
    | true =>
      rw [if_pos rfl]
      exact h.join hs hc htable hwired kind hvs.1 hw (hseen w hw) hbelow
        (hup w v hbelow (htakes v htaken))
    | false =>
      rw [if_neg Bool.false_ne_true]
      exact h.embed hw hbelow fun haccepts =>
        ⟨hup w v hbelow haccepts, hleft.1 haccepts htaken⟩

/-- Other than the root, what is accepted is joined or embedded. -/
theorem Joined.all (hs : p.schema.Sound) (hc : c.Knows p.schema) (htable : p.table ∈ p.schema.tables)
    (hwired : relations.Wired p.schema p.table)
    (hup : ∀ w v, Relations.Below p.schema w v → accepts v = true → accepts w = true)
    (kind : JoinKind)
    (h : Joined p c columns clauses d outer relations accepts [relations.rootVisit] source) :
    Joined p c columns clauses d outer relations accepts relations.visits
      (p.joinAll kind accepts source relations.visits) := by
  rw [joinAll, List.foldl_filter, Relations.visits_eq, List.foldl_cons, hwired.root_not_joined,
    Bool.false_and, if_neg Bool.false_ne_true]
  have hlower : ∀ v ∈ relations.lowerVisits, v ∈ relations.visits := by
    intro v hv
    rw [Relations.visits_eq]
    exact List.mem_cons_of_mem _ hv
  refine Joined.fold accepts _ hs hc htable hwired hup ?_ ?_ ?_ hlower hwired.ordered kind h
  · intro v hv
    exact (Bool.and_eq_true_iff.mp hv).2
  · intro v hv haccepts htaken
    obtain ⟨w, _, hbelow⟩ := hwired.ordered.below hv
    rw [haccepts, Bool.and_true, hbelow.isJoined, Bool.not_eq_false'] at htaken
    exact Relation.isEmbedded_iff.mp htaken
  · intro v hv
    rw [List.mem_singleton.mp hv]
    exact relations.rootVisit_mem

/-- FROM a single relation. -/
theorem joined_of (hs : p.schema.Sound) (hc : c.Knows p.schema) (htable : p.table ∈ p.schema.tables)
    (hwired : relations.Wired p.schema p.table) (hv : v ∈ relations.visits) :
    Joined p c columns clauses d outer relations accepts [v] (.of (p.factor v.label)) where
  serves := by
    intro _ o ho
    rw [List.mem_singleton.mp ho]
    exact factor_serves hs hc htable hwired (Relations.label_mem_all hv)
  named := by
    intro _ w hw _
    rw [List.mem_singleton.mp hw]
    exact ⟨_, List.mem_singleton.mpr rfl, by
      rw [Factor.aliasName_offer]
      exact sameName_self _⟩
  parts := by
    rw [Source.partsCollect_of, factor, Factor.collect]
    exact Draft.settles_nil

theorem keyEq_asked {left right : String} {key : List Column} {scopes : Scopes}
    (hleft : columns → ∀ column ∈ key, scopes.Resolve left column.name)
    (hright : columns → ∀ column ∈ key, scopes.Resolve right column.name) :
    AllAsked columns clauses ((keyEq left right key).collect (.sites c) scopes) := by
  intro site hsite
  rw [keyEq, Expr.collect_allOf, List.flatMap_map] at hsite
  obtain ⟨column, hcolumn, hsite⟩ := List.mem_flatMap.mp hsite
  rw [Expr.collect_eq, Expr.sites_columnOf, Expr.sites_columnOf] at hsite
  rcases List.mem_append.mp hsite with hin | hin
  · rw [List.mem_singleton.mp hin]
    exact fun hcolumns => hleft hcolumns column hcolumn
  · rw [List.mem_singleton.mp hin]
    exact fun hcolumns => hright hcolumns column hcolumn

/-- A row source with the keys of the root, named like no relation, and the root joined to it. -/
theorem joined_lead (lead : Factor) (hs : p.schema.Sound) (hc : c.Knows p.schema) (htable : p.table ∈ p.schema.tables)
    (hwired : relations.Wired p.schema p.table)
    (hother : columns → ∀ r ∈ relations.all, sameName lead.reference r.aliasName = false)
    (hkey : columns → ∀ column ∈ p.table.keyColumns, column.name ∈ (lead.offer c).columns)
    (hparts : d.Settles p.schema c columns clauses (lead.collect (.sites c) outer)) :
    Joined p c columns clauses d outer relations accepts [relations.rootVisit]
      ((Source.of lead).join .inner (p.factor relations.root)
        (keyEq lead.reference relations.root.aliasName p.table.keyColumns)) := by
  have hserves : columns → ∀ o ∈ [lead.offer c, (p.factor relations.root).offer c],
      o.Serves p.schema relations := by
    intro hcolumns o ho
    rcases List.mem_cons.mp ho with rfl | hroot
    · intro r hr hname
      rw [Factor.aliasName_offer, hother hcolumns r hr] at hname
      cases hname
    · rw [List.mem_singleton.mp hroot]
      exact factor_serves hs hc htable hwired relations.root_mem_all
  have hself : Offered [lead.offer c, (p.factor relations.root).offer c] relations.root :=
    ⟨_, List.mem_cons_of_mem _ (List.mem_singleton.mpr rfl), by
      rw [Factor.aliasName_offer]
      exact sameName_self _⟩
  exact {
    serves := by
      rw [Source.offers_join]
      exact hserves
    named := by
      intro _ v hv _
      rw [Source.offers_join, List.mem_singleton.mp hv]
      exact hself
    parts := by
      rw [Source.partsCollect_join, Source.inside_sites, Source.offers_of, Source.partsCollect_of,
        collect_factor, List.nil_append]
      refine Draft.settles_append.mpr ⟨hparts, AllAsked.settles ?_ d⟩
      apply keyEq_asked
      · intro hcolumns column hcolumn
        unfold Scopes.Resolve
        rw [if_pos]
        · intro o ho hname
          rcases List.mem_cons.mp ho with rfl | hroot
          · exact hkey hcolumns column hcolumn
          · have hne := hother hcolumns _ relations.root_mem_all
            rw [List.mem_singleton.mp hroot, Factor.aliasName_offer, sameName_comm] at hname
            exact absurd (hne.symm.trans hname) Bool.false_ne_true
        · apply List.any_eq_true.mpr
          refine ⟨_, List.mem_cons_self, ?_⟩
          rw [Factor.aliasName_offer]
          exact sameName_self _
      · intro hcolumns column hcolumn
        have hread : Scopes.Reads ([lead.offer c, (p.factor relations.root).offer c] :: outer)
            relations.root.aliasName (p.schema.table relations.root.table) :=
          reads_of_serves (hserves hcolumns) relations.root_mem_all (Or.inl hself)
        apply hread
        rw [hwired.rootTable, hs.table_id htable]
        exact (hs.laid p.table htable).mem_of_mem_keyColumns hcolumn }

/-- FROM the root and the relations accepted. -/
theorem joined_fromClause (hs : p.schema.Sound) (hc : c.Knows p.schema)
    (htable : p.table ∈ p.schema.tables) (hwired : relations.Wired p.schema p.table)
    (hup : ∀ w v, Relations.Below p.schema w v → accepts v = true → accepts w = true) :
    Joined p c columns clauses d outer relations accepts relations.visits
      (p.fromClause relations accepts) :=
  (joined_of hs hc htable hwired relations.rootVisit_mem).all hs hc htable hwired hup .left

end Joined

section Apart

/-- The aliases of joined relations, after those that were there. -/
theorem aliases_foldl_join (p : Planner) (kind : JoinKind) (vs : List (Tree.Visit Relation))
    (source : Source) :
    (vs.foldl (fun source v => source.join kind (p.factor v.label) (p.joinCondition v))
      source).aliases = source.aliases ++ vs.map fun v => v.label.aliasName := by
  induction vs generalizing source with
  | nil => simp
  | cons v vs ih =>
    rw [List.foldl_cons, ih, Source.aliases_join, List.append_assoc]
    rfl

/-- The names of row sources of their own are apart, and so are some of them. -/
theorem apart_of_sublist (hwired : relations.Wired p.schema p.table) {rs : List Relation}
    (hsub : rs.Sublist relations.all) (hown : ∀ r ∈ rs, r.isEmbedded = false) :
    Apart (rs.map Relation.aliasName) := by
  have hnames : rs.filterMap Relation.rowName? = (rs.map Relation.aliasName).map lowerAscii := by
    rw [List.map_map, ← List.filterMap_eq_map]
    apply List.filterMap_congr
    intro r hr
    simp [Relation.rowName?, hown r hr]
  rw [Apart, ← hnames]
  exact hwired.given.numbered.names.sublist (hsub.filterMap _)

/-- No two aliases of the FROM clause agree, if none of the row sources at its head is named like a
relation. -/
theorem apart_joinAll (hwired : relations.Wired p.schema p.table) (kind : JoinKind)
    (accepts : Tree.Visit Relation → Bool) (lead : List String) {source : Source}
    (hsource : source.aliases = lead ++ [relations.root.aliasName]) (hlead : Apart lead)
    (hother : ∀ name ∈ lead, ∀ r ∈ relations.all, sameName name r.aliasName = false) :
    Apart (p.joinAll kind accepts source relations.visits).aliases := by
  let joined := relations.root ::
    (relations.lowerVisits.filter fun v => v.label.isJoined && accepts v).map Tree.Visit.label
  have haliases : (p.joinAll kind accepts source relations.visits).aliases =
      lead ++ joined.map Relation.aliasName := by
    rw [joinAll, aliases_foldl_join, hsource, Relations.visits_eq, List.filter_cons,
      hwired.root_not_joined, Bool.false_and, if_neg Bool.false_ne_true, List.append_assoc]
    simp [joined]
  have hsub : joined.Sublist relations.all := by
    rw [← Relations.map_label_visits, Relations.visits_eq, List.map_cons]
    exact (List.filter_sublist.map _).cons_cons _
  have hown : ∀ r ∈ joined, r.isEmbedded = false := by
    intro r hr
    rcases List.mem_cons.mp hr with rfl | hjoined
    · exact hwired.root_not_embedded
    · obtain ⟨v, hv, rfl⟩ := List.mem_map.mp hjoined
      obtain ⟨hlower, htaken⟩ := List.mem_filter.mp hv
      have hmem : v ∈ relations.visits := by
        rw [Relations.visits_eq]
        exact List.mem_cons_of_mem _ hlower
      exact hwired.not_embedded_of_joined hmem (Bool.and_eq_true_iff.mp htaken).1
  rw [haliases, Apart, List.map_append]
  refine List.nodup_append.mpr ⟨hlead, apart_of_sublist hwired hsub hown, ?_⟩
  intro lowered hlowered last hlast
  obtain ⟨name, hname, rfl⟩ := List.mem_map.mp hlowered
  obtain ⟨aliasName, haliasName, rfl⟩ := List.mem_map.mp hlast
  obtain ⟨r, hr, rfl⟩ := List.mem_map.mp haliasName
  have hne := hother name hname r (hsub.subset hr)
  rw [sameName, beq_eq_false_iff_ne] at hne
  exact hne

theorem apart_fromClause (hwired : relations.Wired p.schema p.table)
    (accepts : Tree.Visit Relation → Bool) : Apart (p.fromClause relations accepts).aliases :=
  apart_joinAll hwired .left accepts [] rfl List.nodup_nil nofun

end Apart

end Planner

end ShapeSql
