import ShapeSql.Proofs.Plan.Change
import ShapeSql.Proofs.Plan.FilterSites

namespace ShapeSql

open Sql Planning

variable {c : Catalog} {columns clauses : Prop} {d d' : Draft}

namespace Planner

variable {p : Planner}

/-- The target of a change is the one row source, under its own name. -/
theorem reads_target (hc : c.Knows p.schema) (htable : p.table ∈ p.schema.tables) (outer : Scopes) :
    Scopes.Reads ([⟨p.table.name, c.tables p.table.name⟩] :: outer) p.table.name p.table := by
  rw [hc p.table htable]
  exact reads_of_offer (List.nodup_singleton _) (List.mem_singleton.mpr rfl)

theorem rootFilter_settles (hs : p.schema.Sound) (hkeyed : p.schema.Keyed) (hc : c.Knows p.schema)
    (htable : p.table ∈ p.schema.tables) (hd : d.Sound) {argument : FieldTree} {e : Expr}
    (hrun : (p.rootFilter argument).run d = .ok (e, d')) (hspared : columns → d.Spares p.table.name)
    {scopes : Scopes} (hreads : columns → scopes.Reads p.table.name p.table) :
    d.nextAlias ≤ d'.nextAlias ∧
      d'.Settles p.schema c columns clauses (e.collect (.sites c) scopes) := by
  unfold rootFilter at hrun
  split at hrun
  · rw [run_throw_ok] at hrun
    exact hrun.elim
  · obtain ⟨hlater, hconfined⟩ := fieldFilter_confined columns clauses hs hkeyed hc argument
      ⟨p.table.name, p.table⟩ _ htable hd hrun
    exact ⟨hlater, hconfined scopes hspared hreads⟩

theorem rootFilters_settle (hs : p.schema.Sound) (hkeyed : p.schema.Keyed) (hc : c.Knows p.schema)
    (htable : p.table ∈ p.schema.tables) (hd : d.Sound) {arguments : List FieldTree} {es : List Expr}
    (hrun : (arguments.mapM p.rootFilter).run d = .ok (es, d'))
    (hspared : columns → d.Spares p.table.name) {scopes : Scopes}
    (hreads : columns → scopes.Reads p.table.name p.table) :
    d'.Settles p.schema c columns clauses (es.flatMap (Expr.collect (.sites c) scopes)) := by
  induction arguments generalizing d es with
  | nil =>
    rw [List.mapM_nil, run_pure_ok] at hrun
    obtain ⟨rfl, rfl⟩ := hrun
    exact Draft.settles_nil
  | cons argument rest ih =>
    rw [List.mapM_cons] at hrun
    simp only [run_bind_ok, run_pure_ok] at hrun
    obtain ⟨e, between, he, others, after, hothers, rfl, rfl⟩ := hrun
    obtain ⟨hnext, hfirst⟩ := rootFilter_settles hs hkeyed hc htable hd he hspared hreads
    have hsound := (p.rootFilter_extends hd he).1.sound
    have hextends := (p.rootFilters_extends hsound hothers).1
    rw [List.flatMap_cons]
    refine Draft.settles_append.mpr ⟨hextends.settles hfirst, ?_⟩
    exact ih hsound hothers fun hasked => (hspared hasked).later hnext

theorem setAssignments_nextAlias {fields : List Field} {assignments : List Assignment}
    (hrun : (fields.mapM p.setAssignment).run d = .ok (assignments, d')) :
    d'.nextAlias = d.nextAlias := by
  induction fields generalizing d assignments with
  | nil =>
    rw [List.mapM_nil, run_pure_ok] at hrun
    rw [hrun.2]
  | cons field rest ih =>
    rw [List.mapM_cons] at hrun
    simp only [run_bind_ok, run_pure_ok] at hrun
    obtain ⟨a, between, ha, others, after, hothers, rfl, rfl⟩ := hrun
    refine (ih hothers).trans ?_
    unfold setAssignment at ha
    split at ha
    · simp only [run_bind_ok, run_throw_ok, false_and, exists_false] at ha
    · simp only [run_bind_ok, run_lift_ok, run_pure_ok] at ha
      obtain ⟨column, _, ⟨_, rfl⟩, name, declared, hname, hole, _, hhole, rfl, rfl⟩ := ha
      exact (rule_nextAlias hhole).trans (param_nextAlias hname)

/-- The holes of assignments are settled: what stands in them reads no column. -/
theorem setAssignments_settle (hd : d.Sound) {fields : List Field} {assignments : List Assignment}
    (hrun : (fields.mapM p.setAssignment).run d = .ok (assignments, d')) (scopes : Scopes) :
    d'.Settles p.schema c columns clauses
      (assignments.flatMap (Assignment.collect (.sites c) scopes)) := by
  induction fields generalizing d assignments with
  | nil =>
    rw [List.mapM_nil, run_pure_ok] at hrun
    obtain ⟨rfl, rfl⟩ := hrun
    exact Draft.settles_nil
  | cons field rest ih =>
    rw [List.mapM_cons] at hrun
    simp only [run_bind_ok, run_pure_ok] at hrun
    obtain ⟨a, between, ha, others, after, hothers, rfl, rfl⟩ := hrun
    have hsound := (p.setAssignment_extends hd ha).1.sound
    have hextends := (p.setAssignments_extends hsound hothers).1
    have hfirst : between.Settles p.schema c columns clauses (a.collect (.sites c) scopes) := by
      unfold setAssignment at ha
      split at ha
      · simp only [run_bind_ok, run_throw_ok, false_and, exists_false] at ha
      · simp only [run_bind_ok, run_lift_ok, run_pure_ok] at ha
        obtain ⟨column, _, ⟨_, rfl⟩, name, declared, _, hole, _, hhole, rfl, rfl⟩ := ha
        rw [Assignment.collect]
        exact rule_settles Draft.settles_nil hhole
    rw [List.flatMap_cons]
    exact Draft.settles_append.mpr ⟨hextends.settles hfirst, ih hsound hothers⟩

/-- An update of the target asks for what its assignments and its conditions do. -/
theorem updateTarget_settles (hc : c.Knows p.schema) (htable : p.table ∈ p.schema.tables)
    {assignments : List Assignment} {filters : List Expr}
    (hassignments : ∀ scopes : Scopes, d.Settles p.schema c columns clauses
      (assignments.flatMap (Assignment.collect (.sites c) scopes)))
    (hfilters : ∀ scopes : Scopes, (columns → scopes.Reads p.table.name p.table) →
      d.Settles p.schema c columns clauses (filters.flatMap (Expr.collect (.sites c) scopes))) :
    ∀ st ∈ p.updateTarget assignments filters,
      d.Settles p.schema c columns clauses (st.collect (.sites c) []) := by
  intro st hst
  rw [updateTarget, List.mem_singleton] at hst
  rw [hst, Statement.collect, Update.collect, sourceCollect, List.nil_append]
  refine Draft.settles_append.mpr ⟨hassignments _, ?_⟩
  rw [Expr.optionalCollect_allOf?]
  exact hfilters _ fun _ => reads_target hc htable []

theorem updateBySet_settles (hs : p.schema.Sound) (hkeyed : p.schema.Keyed) (hc : c.Knows p.schema)
    (htable : p.table ∈ p.schema.tables) (hd : d.Sound) {batch : Batch}
    (hrun : p.updateBySet.run d = .ok (batch, d')) (hspared : columns → d.Spares p.table.name) :
    ∀ st ∈ batch, d'.Settles p.schema c columns clauses (st.collect (.sites c) []) := by
  simp only [updateBySet, run_bind_ok, run_pure_ok] at hrun
  obtain ⟨assignments, between, hassignments, filters, after, hfilters, rfl, rfl⟩ := hrun
  have hsound := (p.setAssignments_extends hd hassignments).1.sound
  have hextends := (p.rootFilters_extends hsound hfilters).1
  apply updateTarget_settles hc htable
  · exact fun scopes => hextends.settles (setAssignments_settle hd hassignments scopes)
  · intro scopes hreads
    refine rootFilters_settle hs hkeyed hc htable hsound hfilters ?_ hreads
    have hsame := setAssignments_nextAlias hassignments
    exact fun hasked => (hspared hasked).later (Nat.le_of_eq hsame.symm)

/-- The match of entities reads the key of the target. -/
theorem keyMatch_settles (hs : p.schema.Sound) (htable : p.table ∈ p.schema.tables)
    {entity : FieldTree} {e : Expr} (hrun : (p.keyMatch entity).run d = .ok (e, d'))
    {scopes : Scopes} (hreads : columns → scopes.Reads p.table.name p.table) :
    d'.Settles p.schema c columns clauses (e.collect (.sites c) scopes) := by
  simp only [keyMatch, run_bind_ok, run_lift_ok, run_pure_ok] at hrun
  obtain ⟨keys, _, ⟨hkeys, rfl⟩, base, between, hbase, hole, after, hhole, rfl, rfl⟩ := hrun
  rw [Expr.collect]
  refine rule_settles (AllAsked.settles ?_ between) hhole
  intro site hsite
  obtain ⟨key, hkey, hsite⟩ := List.mem_flatMap.mp hsite
  unfold keyFields at hkeys
  split at hkeys
  · cases hkeys
  · obtain ⟨column, hcolumn, hfound⟩ := mem_of_mapM_ok hkeys hkey
    split at hfound
    · cases hfound
      rw [Expr.sites_columnOf, List.mem_singleton] at hsite
      rw [hsite]
      exact fun hasked => hreads hasked column
        ((hs.laid p.table htable).mem_of_mem_keyColumns hcolumn)
    · cases hfound

theorem delete_settles (hs : p.schema.Sound) (hkeyed : p.schema.Keyed) (hc : c.Knows p.schema)
    (htable : p.table ∈ p.schema.tables) (hd : d.Sound) {batch : Batch}
    (hrun : p.delete.run d = .ok (batch, d')) (hspared : columns → d.Spares p.table.name) :
    ∀ st ∈ batch, d'.Settles p.schema c columns clauses (st.collect (.sites c) []) := by
  have hreads := reads_target hc htable []
  simp only [delete, run_bind_ok, run_lift_ok] at hrun
  obtain ⟨found, _, ⟨_, rfl⟩, hrest⟩ := hrun
  cases found with
  | some entity =>
    simp only [run_bind_ok, run_pure_ok] at hrest
    obtain ⟨condition, between, hcondition, _, _, ⟨rfl, rfl⟩, rfl, rfl⟩ := hrest
    intro st hst
    rw [List.mem_singleton.mp hst, Statement.collect, Factor.collect, List.nil_append, optionalCollect]
    exact keyMatch_settles hs htable hcondition fun _ => hreads
  | none =>
    simp only [run_bind_ok, run_pure_ok] at hrest
    obtain ⟨filters, between, hfilters, _, _, ⟨rfl, rfl⟩, rfl, rfl⟩ := hrest
    intro st hst
    rw [List.mem_singleton.mp hst, Statement.collect, Factor.collect, List.nil_append,
      Expr.optionalCollect_allOf?]
    exact rootFilters_settle hs hkeyed hc htable hd hfilters hspared fun _ => hreads

end Planner

end ShapeSql
