import ShapeSql.Plan.Change
import ShapeSql.Proofs.Plan.Write
import ShapeSql.Proofs.Tree

namespace ShapeSql

open Sql Planning

/-- The place and the path of an assignment. -/
def assignmentOf (field : Field) : Place × Path := (.assignments, field.path)

/-- The holes of all rules that assign are among the assignments. -/
def HoldsAssigning (rules : List HoleRule) (assignments : List Assignment) : Prop :=
  ∀ rule ∈ rules, rule.action.place = .assignments → .hole rule.hole ∈ assignments

namespace Planner

variable {d d' : Draft}

/-- Steps that share no assignment add no rule that assigns. -/
theorem holdsAssigning_of_extends {marked : List (Place × Path)} {assignments : List Assignment}
    (hext : d.Extends marked d') (hmarked : ∀ path, (.assignments, path) ∉ marked)
    (h : HoldsAssigning d.rules assignments) : HoldsAssigning d'.rules assignments := by
  intro rule hrule hplace
  exact h rule (hext.mem_of_unmarked (Or.inl rfl) hmarked hrule hplace) hplace

theorem setAssignment_extends (p : Planner) {field : Field} {a : Assignment} (hd : d.Sound)
    (hrun : (p.setAssignment field).run d = .ok (a, d')) :
    d.Extends [assignmentOf field] d' ∧ d'.Fills (a.collect .leaves ()) ∧
      (∃ rule ∈ d'.rules, rule.action.place = .assignments) ∧
      ∀ before, HoldsAssigning d.rules before → HoldsAssigning d'.rules (before ++ [a]) := by
  unfold setAssignment at hrun
  split at hrun
  · simp only [run_bind_ok, run_throw_ok, false_and, exists_false] at hrun
  · simp only [run_bind_ok, run_lift_ok, run_pure_ok] at hrun
    obtain ⟨column, _, ⟨_, rfl⟩, name, between, hname, hole, after, hhole, rfl, rfl⟩ := hrun
    obtain ⟨hparam, q, hq, rfl, hpath, htransform⟩ := param_extends hd hname
    have hadmits : Admits between field.path
        (.assign column.name q.name field.directives.ignore) := by
      have hplain : q.transform ≠ .required := by
        rw [htransform]
        intro hrequired
        cases hrequired
      refine ⟨List.forall_mem_nil _, fun _ => False.elim, ?_, trivial⟩
      intro other hother
      cases hother
      exact ⟨q, hq, rfl, hpath, hplain⟩
    obtain ⟨hrule, hfilled⟩ := rule_extends hparam.sound hadmits hhole
    refine ⟨hparam.trans hrule, ?_, ?_, ?_⟩
    · intro l hl
      rw [Assignment.collect, Collector.leaves_hole, List.mem_singleton] at hl
      rw [hl]
      exact hfilled
    · obtain ⟨rule, hmem, _, hplace⟩ := hfilled
      exact ⟨rule, hmem, hplace⟩
    · intro before hbefore
      have hkept := holdsAssigning_of_extends hparam (by simp) hbefore
      cases hhole
      intro rule hmem hplace
      rcases List.mem_append.mp hmem with hold | hnew
      · exact List.mem_append_left _ (hkept rule hold hplace)
      · rw [List.mem_singleton.mp hnew]
        exact List.mem_append_right _ (List.mem_singleton.mpr rfl)

theorem setAssignments_extends (p : Planner) {fields : List Field} {results : List Assignment}
    (hd : d.Sound) (hrun : (fields.mapM p.setAssignment).run d = .ok (results, d')) :
    d.Extends (fields.map assignmentOf) d' ∧ d'.Fills (results.flatMap (Assignment.collect .leaves ())) ∧
      (fields ≠ [] → ∃ rule ∈ d'.rules, rule.action.place = .assignments) ∧
      ∀ before, HoldsAssigning d.rules before → HoldsAssigning d'.rules (before ++ results) := by
  induction fields generalizing d results with
  | nil =>
    rw [List.mapM_nil, run_pure_ok] at hrun
    obtain ⟨rfl, rfl⟩ := hrun
    exact ⟨.refl hd, Draft.fills_nil, fun h => absurd rfl h, fun before h => by simpa using h⟩
  | cons field fields ih =>
    rw [List.mapM_cons] at hrun
    simp only [run_bind_ok, run_pure_ok] at hrun
    obtain ⟨a, between, ha, rest, after, hrest, rfl, rfl⟩ := hrun
    obtain ⟨hhead, hfills, ⟨rule, hrule, hplace⟩, hfirst⟩ := p.setAssignment_extends hd ha
    obtain ⟨htail, hothers, _, hholds⟩ := ih hhead.sound hrest
    refine ⟨hhead.trans htail, ?_, fun _ => ?_, ?_⟩
    · rw [List.flatMap_cons]
      exact (htail.fills hfills).append hothers
    · obtain ⟨more, hmore, _⟩ := htail.rules
      exact ⟨rule, hmore ▸ List.mem_append_left _ hrule, hplace⟩
    · intro before hbefore
      have hrest := hholds (before ++ [a]) (hfirst before hbefore)
      simpa using hrest

end Planner

/-- An update assigns by itself, or holds what every rule that assigns may keep. -/
def Sql.Statement.KeepsAssignment (rules : List HoleRule) : Statement → Prop
  | .update u => (∃ column value, .set column value ∈ u.assignments) ∨
      ((∃ rule ∈ rules, rule.action.place = .assignments) ∧ HoldsAssigning rules u.assignments)
  | _ => True

namespace Planner

variable {d d' : Draft}

theorem rootFilter_extends (p : Planner) {argument : FieldTree} {e : Expr} (hd : d.Sound)
    (hrun : (p.rootFilter argument).run d = .ok (e, d')) :
    d.Extends (argument.preorder.map comparison) d' ∧ d'.Fills (e.collect .leaves ()) := by
  unfold rootFilter at hrun
  split at hrun
  · rw [run_throw_ok] at hrun
    exact hrun.elim
  · exact p.fieldFilter_extends argument _ _ hd hrun

theorem rootFilters_extends (p : Planner) {arguments : List FieldTree} {es : List Expr}
    (hd : d.Sound) (hrun : (arguments.mapM p.rootFilter).run d = .ok (es, d')) :
    d.Extends ((Tree.preorderAll arguments).map comparison) d' ∧
      d'.Fills (es.flatMap (Expr.collect .leaves ())) := by
  have hstep : ∀ (argument : FieldTree) (d d' : Draft) (e : Expr), d.Sound →
      (p.rootFilter argument).run d = .ok (e, d') →
        d.Extends (argument.preorder.map comparison) d' ∧ d'.Fills (e.collect .leaves ()) :=
    fun argument d d' e hd hrun => p.rootFilter_extends hd hrun
  have hall := mapM_extends hstep hd hrun
  rw [Tree.preorderAll_eq_flatMap, List.map_flatMap]
  exact hall

theorem leaves_updateTarget (p : Planner) (assignments : List Assignment) (filters : List Expr) :
    Batch.leaves (p.updateTarget assignments filters) =
      assignments.flatMap (Assignment.collect .leaves ()) ++
        filters.flatMap (Expr.collect .leaves ()) := by
  rw [Batch.leaves, updateTarget, List.flatMap_singleton, Statement.collect, Update.collect,
    Expr.optionalCollect_allOf?]
  rfl

theorem updateBySet_extends (p : Planner) {batch : Batch} (hd : d.Sound)
    (hnone : HoldsAssigning d.rules []) (hset : p.arguments.set ≠ [])
    (hrun : p.updateBySet.run d = .ok (batch, d')) :
    d.Extends (p.arguments.set.map assignmentOf ++
        (Tree.preorderAll p.arguments.filters).map comparison) d' ∧
      d'.Fills batch.leaves ∧ ∀ st ∈ batch, st.KeepsAssignment d'.rules := by
  simp only [updateBySet, run_bind_ok, run_pure_ok] at hrun
  obtain ⟨assignments, between, hassignments, filters, after, hfilters, rfl, rfl⟩ := hrun
  obtain ⟨hassigned, hfills, hsome, hholds⟩ := p.setAssignments_extends hd hassignments
  obtain ⟨hfiltered, hconditions⟩ := p.rootFilters_extends hassigned.sound hfilters
  refine ⟨hassigned.trans hfiltered, ?_, ?_⟩
  · rw [leaves_updateTarget]
    exact (hfiltered.fills hfills).append hconditions
  · intro st hst
    rw [updateTarget, List.mem_singleton] at hst
    rw [hst]
    right
    constructor
    · obtain ⟨rule, hrule, hplace⟩ := hsome hset
      obtain ⟨more, hmore, _⟩ := hfiltered.rules
      exact ⟨rule, hmore ▸ List.mem_append_left _ hrule, hplace⟩
    · apply holdsAssigning_of_extends hfiltered
      · exact not_mem_map_of_ne (by decide) _
      · simpa using hholds [] hnone

/-- The columns of a single entity come to parameters, and to no rules. -/
theorem entityColumns_extends (p : Planner) {entity : Path} {columns : List WrittenColumn}
    {assignments : List Assignment} {filters : List Expr} (hd : d.Sound)
    (hrun : (p.entityColumns entity columns).run d = .ok ((assignments, filters), d')) :
    d.Extends [] d' ∧ d'.rules = d.rules ∧
      (∀ l ∈ assignments.flatMap (Assignment.collect .leaves ()) ++
        filters.flatMap (Expr.collect .leaves ()),
        ∃ q ∈ d'.params, l = .param q.name) ∧
      ∀ a ∈ assignments, ∃ column value, a = .set column value := by
  induction columns generalizing d d' assignments filters with
  | nil =>
    simp only [entityColumns, run_pure_ok, Prod.mk.injEq] at hrun
    obtain ⟨⟨rfl, rfl⟩, rfl⟩ := hrun
    exact ⟨.refl hd, rfl, List.forall_mem_nil _, List.forall_mem_nil _⟩
  | cons written rest ih =>
    obtain ⟨column, source⟩ := written
    cases source with
    | none => exact ih hd hrun
    | some source =>
      simp only [entityColumns, run_bind_ok] at hrun
      obtain ⟨name, between, hname, ⟨others, conditions⟩, after, hothers, hlast⟩ := hrun
      obtain ⟨hparam, q, hq, rfl, _⟩ := param_extends hd hname
      obtain ⟨htail, hrules, hleaves, hset⟩ := ih hparam.sound hothers
      have hkept : ∃ q' ∈ after.params, Leaf.param q.name = .param q'.name :=
        ⟨q, htail.params q hq, rfl⟩
      have hunchanged : after.rules = d.rules := hrules.trans (rules_of_param hname)
      split at hlast
      · simp only [run_pure_ok, Prod.mk.injEq] at hlast
        obtain ⟨⟨rfl, rfl⟩, rfl⟩ := hlast
        refine ⟨hparam.trans htail, hunchanged, ?_, hset⟩
        intro l hl
        simp only [List.flatMap_cons, Expr.collect_eq, Expr.collect_columnOf, Expr.collect,
          Collector.leaves_column, Collector.leaves_param, List.nil_append, List.mem_append,
          List.mem_singleton] at hl
        rcases hl with hold | rfl | hother
        · exact hleaves l (List.mem_append_left _ hold)
        · exact hkept
        · exact hleaves l (List.mem_append_right _ hother)
      · split at hlast
        · simp only [run_pure_ok, Prod.mk.injEq] at hlast
          obtain ⟨⟨rfl, rfl⟩, rfl⟩ := hlast
          exact ⟨hparam.trans htail, hunchanged, hleaves, hset⟩
        · simp only [run_pure_ok, Prod.mk.injEq] at hlast
          obtain ⟨⟨rfl, rfl⟩, rfl⟩ := hlast
          refine ⟨hparam.trans htail, hunchanged, ?_, ?_⟩
          · intro l hl
            simp only [List.flatMap_cons, Assignment.collect, Expr.collect, Collector.leaves_param,
              List.mem_append, List.mem_singleton] at hl
            rcases hl with (rfl | hold) | hother
            · exact hkept
            · exact hleaves l (List.mem_append_left _ hold)
            · exact hleaves l (List.mem_append_right _ hother)
          · intro a ha
            rcases List.mem_cons.mp ha with rfl | hmem
            · exact ⟨_, _, rfl⟩
            · exact hset a hmem

theorem keepsAssignment_of_updateRows {t : WrittenTable} {st : Statement}
    (h : t.updateRows = some st) (rules : List HoleRule) : st.KeepsAssignment rules := by
  obtain ⟨hnonempty, rfl⟩ := WrittenTable.updateRows_inv h
  obtain ⟨column, hcolumn⟩ := List.exists_mem_of_ne_nil _ hnonempty
  exact Or.inl ⟨column.name, _, List.mem_map_of_mem hcolumn⟩

/-- An update by entities, which have to supply the key, fills a table variable, or assigns the columns of
a single entity. -/
theorem updateByEntity_cases (p : Planner) {batch : Batch}
    (hrun : p.updateByEntity.run d = .ok (batch, d')) :
    ∃ entity tree, p.entity = .ok entity ∧ p.writtenTree entity = .ok tree ∧
      checkKeySupplied (updatedTable tree.label) entity.label.path p.table.keyColumns = .ok () ∧
      ((∃ fill update, entity.label.isList = true ∧
          (fillLookup (updatedTable tree.label) entity.label.path).run d = .ok (fill, d') ∧
          (updatedTable tree.label).updateRows = some update ∧
          batch = [(updatedTable tree.label).declareLookup, fill, update]) ∨
        ∃ assignments filters, entity.label.isList = false ∧
          (p.entityColumns entity.label.path (updatedTable tree.label).columns).run d =
            .ok ((assignments, filters), d') ∧
          assignments ≠ [] ∧ batch = p.updateTarget assignments filters) := by
  cases hentity : p.entity with
  | error e =>
    simp only [updateByEntity, hentity, run_bind_ok, run_throw_ok, false_and, exists_false]
      at hrun
  | ok entity =>
    simp only [updateByEntity, hentity] at hrun
    split at hrun
    · simp only [run_bind_ok, run_throw_ok, false_and, exists_false, and_false] at hrun
    · simp only [run_bind_ok, run_pure_ok, run_lift_ok] at hrun
      obtain ⟨_, _, ⟨rfl, rfl⟩, tree, _, ⟨htree, rfl⟩, _, _, ⟨hkey, rfl⟩, hrest⟩ := hrun
      refine ⟨entity, tree, rfl, htree, hkey, ?_⟩
      split at hrest
      · rename_i hlist
        left
        simp only [run_bind_ok] at hrest
        obtain ⟨fill, between, hfill, hlast⟩ := hrest
        split at hlast
        · rw [run_throw_ok] at hlast
          exact hlast.elim
        · rename_i update hupdate
          rw [run_pure_ok] at hlast
          obtain ⟨rfl, rfl⟩ := hlast
          exact ⟨fill, update, hlist, hfill, hupdate, rfl⟩
      · rename_i hlist
        right
        simp only [run_bind_ok] at hrest
        obtain ⟨⟨assignments, filters⟩, between, hcolumns, hlast⟩ := hrest
        split at hlast
        · simp only [run_bind_ok, run_throw_ok, false_and, exists_false] at hlast
        · rename_i hnonempty
          rw [run_pure_ok] at hlast
          obtain ⟨rfl, rfl⟩ := hlast
          rw [List.isEmpty_iff] at hnonempty
          exact ⟨assignments, filters, Bool.eq_false_iff.mpr hlist, hcolumns, hnonempty, rfl⟩

/-- The statement that fills a table variable is no update. -/
theorem keepsAssignment_of_fillLookup {t : WrittenTable} {entity : Path} {st : Statement}
    (hrun : (fillLookup t entity).run d = .ok (st, d')) (rules : List HoleRule) :
    st.KeepsAssignment rules := by
  obtain ⟨base, between, _, hole, _, rfl⟩ := fillLookup_inv hrun
  trivial

theorem updateByEntity_extends (p : Planner) {batch : Batch} (hd : d.Sound) (hrules : d.rules = [])
    (hrun : p.updateByEntity.run d = .ok (batch, d')) :
    d.Extends [] d' ∧ (∀ l ∈ batch.leaves, l.SettledBy d'.rules d'.params) ∧
      ∀ st ∈ batch, st.KeepsAssignment d'.rules := by
  obtain ⟨entity, tree, _, _, _, ⟨fill, update, _, hfill, hupdate, rfl⟩ |
    ⟨assignments, filters, _, hcolumns, hnonempty, rfl⟩⟩ := p.updateByEntity_cases hrun
  · obtain ⟨hext, hfills⟩ := fillLookup_extends hd hfill
    refine ⟨hext, ?_, ?_⟩
    · intro l hl
      rw [Batch.leaves, List.flatMap_cons, List.flatMap_cons, List.flatMap_singleton,
        WrittenTable.collect_updateRows hupdate, Collector.leaves_tableVar, List.append_nil,
        show (updatedTable tree.label).declareLookup.collect .leaves () = [] from rfl,
        List.nil_append] at hl
      exact (hfills l hl).settledBy _
    · intro st hst
      simp only [List.mem_cons, List.not_mem_nil, or_false] at hst
      rcases hst with rfl | rfl | rfl
      · trivial
      · exact keepsAssignment_of_fillLookup hfill _
      · exact keepsAssignment_of_updateRows hupdate _
  · obtain ⟨hext, hunchanged, hleaves, hset⟩ := p.entityColumns_extends hd hcolumns
    refine ⟨hext, ?_, ?_⟩
    · intro l hl
      rw [leaves_updateTarget] at hl
      obtain ⟨q, hq, rfl⟩ := hleaves l hl
      exact ⟨q, hq, rfl, Or.inr (hunchanged.trans hrules)⟩
    · intro st hst
      rw [updateTarget, List.mem_singleton] at hst
      rw [hst]
      obtain ⟨first, rest, hassignments⟩ := List.exists_cons_of_ne_nil hnonempty
      have hfirst : first ∈ assignments := hassignments ▸ List.mem_cons_self
      obtain ⟨column, value, rfl⟩ := hset first hfirst
      exact Or.inl ⟨column, value, hfirst⟩

/-- An update is by its SET arguments if it has any, and by an entity otherwise. -/
theorem update_cases {p : Planner} {batch : Batch} (hrun : p.update.run d = .ok (batch, d')) :
    (p.arguments.set = [] ∧ p.updateByEntity.run d = .ok (batch, d')) ∨
      (p.arguments.set ≠ [] ∧ p.updateBySet.run d = .ok (batch, d')) := by
  unfold update at hrun
  split at hrun
  · exact .inl ⟨List.isEmpty_iff.mp ‹_›, hrun⟩
  · exact .inr ⟨mt List.isEmpty_iff.mpr ‹_›, hrun⟩

/-- With SET arguments an update is by them. -/
theorem updateBySet_of_update {p : Planner} {batch : Batch} (hrun : p.update.run d = .ok (batch, d'))
    (hset : p.arguments.set ≠ []) : p.updateBySet.run d = .ok (batch, d') :=
  ((update_cases hrun).resolve_left fun h => hset h.1).2

/-- Without SET arguments an update is by an entity. -/
theorem updateByEntity_of_update {p : Planner} {batch : Batch}
    (hrun : p.update.run d = .ok (batch, d')) (hset : p.arguments.set = []) :
    p.updateByEntity.run d = .ok (batch, d') :=
  ((update_cases hrun).resolve_right fun h => h.1 hset).2

theorem update_extends (p : Planner) {batch : Batch} (hd : d.Sound) (hrules : d.rules = [])
    (hrun : p.update.run d = .ok (batch, d')) :
    d.Extends (p.arguments.set.map assignmentOf ++
        (Tree.preorderAll p.arguments.filters).map comparison) d' ∧
      (∀ l ∈ batch.leaves, l.SettledBy d'.rules d'.params) ∧
      ∀ st ∈ batch, st.KeepsAssignment d'.rules := by
  rcases update_cases hrun with ⟨_, hrun⟩ | ⟨hset, hrun⟩
  · obtain ⟨hext, hsettled, hkeeps⟩ := p.updateByEntity_extends hd hrules hrun
    exact ⟨hext.mono (List.nil_sublist _), hsettled, hkeeps⟩
  · have hnone : HoldsAssigning d.rules [] := by
      rw [hrules]
      exact nofun
    obtain ⟨hext, hfills, hkeeps⟩ := p.updateBySet_extends hd hnone hset hrun
    exact ⟨hext, fun l hl => (hfills l hl).settledBy _, hkeeps⟩

theorem leaves_of_keyFields (p : Planner) {entity : FieldTree} {columns : List (Expr × Path)}
    (h : p.keyFields entity = .ok columns) : ∀ c ∈ columns, c.1.collect .leaves () = [] := by
  unfold keyFields at h
  split at h
  · cases h
  · intro c hc
    obtain ⟨column, _, hcolumn⟩ := mem_of_mapM_ok h hc
    split at hcolumn
    · cases hcolumn
      exact Expr.collect_columnOf _ _
    · cases hcolumn

theorem keyMatch_extends (p : Planner) {entity : FieldTree} {e : Expr} (hd : d.Sound)
    (hrun : (p.keyMatch entity).run d = .ok (e, d')) :
    d.Extends [] d' ∧ d'.Fills (e.collect .leaves ()) := by
  simp only [keyMatch, run_bind_ok, run_lift_ok, run_pure_ok] at hrun
  obtain ⟨columns, _, ⟨hcolumns, rfl⟩, base, between, hbase, hole, after, hhole, rfl, rfl⟩ := hrun
  obtain ⟨hext, _, hderived⟩ := baseName_extends hd hbase
  have hadmits : Admits between entity.label.path (.keyMatch columns base) := by
    refine ⟨?_, ?_, ?_, trivial⟩
    · intro l hl
      obtain ⟨c, hc, hl⟩ := List.mem_flatMap.mp hl
      rw [p.leaves_of_keyFields hcolumns c hc] at hl
      cases hl
    · rintro name ⟨i, rfl | ⟨j, rfl⟩⟩
      · exact hderived _ (Names.derives_itemName base i)
      · exact hderived _ (Names.derives_itemName_itemName base i j)
    · intro name hparam
      cases hparam
  obtain ⟨hrule, hfilled⟩ := rule_extends hext.sound hadmits hhole
  exact ⟨hext.trans hrule, Draft.fills_hole hfilled⟩

theorem delete_extends (p : Planner) {batch : Batch} (hd : d.Sound)
    (hrun : p.delete.run d = .ok (batch, d')) :
    d.Extends ((Tree.preorderAll p.arguments.filters).map comparison) d' ∧ d'.Fills batch.leaves ∧
      ∀ st ∈ batch, st.KeepsAssignment d'.rules := by
  simp only [delete, run_bind_ok, run_lift_ok] at hrun
  obtain ⟨found, _, ⟨_, rfl⟩, hrest⟩ := hrun
  have hdelete : ∀ filter : Option Expr, Batch.leaves [.delete (.table p.table.name none) filter] =
      optionalCollect .leaves () filter := by
    intro filter
    rw [Batch.leaves, List.flatMap_singleton, Statement.collect, Factor.collect, List.nil_append]
  have hkeeps : ∀ filter : Option Expr,
      ∀ st ∈ [Statement.delete (.table p.table.name none) filter],
        st.KeepsAssignment d'.rules := by
    intro filter st hst
    rw [List.mem_singleton.mp hst]
    trivial
  cases found with
  | some entity =>
    simp only [run_bind_ok, run_pure_ok] at hrest
    obtain ⟨condition, between, hcondition, _, _, ⟨rfl, rfl⟩, rfl, rfl⟩ := hrest
    obtain ⟨hext, hfills⟩ := p.keyMatch_extends hd hcondition
    refine ⟨hext.mono (List.nil_sublist _), ?_, hkeeps _⟩
    rw [hdelete, optionalCollect]
    exact hfills
  | none =>
    simp only [run_bind_ok, run_pure_ok] at hrest
    obtain ⟨filters, between, hfilters, _, _, ⟨rfl, rfl⟩, rfl, rfl⟩ := hrest
    obtain ⟨hext, hfills⟩ := p.rootFilters_extends hd hfilters
    refine ⟨hext, ?_, hkeeps _⟩
    rw [hdelete, Expr.optionalCollect_allOf?]
    exact hfills

end Planner

end ShapeSql
