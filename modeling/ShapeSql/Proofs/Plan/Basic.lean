import Mathlib.Data.List.Nodup
import ShapeSql.Plan.Basic
import ShapeSql.Proofs.Plan.Written

namespace ShapeSql

open Sql

namespace Plan

/-- Rules, parameters and batch of a plan fit together. -/
structure Sound (plan : Plan) : Prop where
  layered : Layered plan.rules
  distinct : (plan.params.map Param.name).Nodup
  aside : ∀ rule ∈ plan.rules, ∀ name, rule.action.Owns name → ∀ p ∈ plan.params, p.name ≠ name
  declared : ∀ rule ∈ plan.rules, ∀ name, rule.action.param? = some name →
    ∃ p ∈ plan.params, p.name = name ∧ p.path = rule.path ∧ p.transform ≠ .required
  fits : ∀ rule ∈ plan.rules, rule.action.Fits
  settled : ∀ l ∈ plan.batch.leaves, l.SettledBy plan.rules plan.params

end Plan

namespace Planner

variable {d d' : Draft}

/-- The places and paths that marked rules may have. -/
def marked (p : Planner) : List (Place × Path) :=
  p.arguments.set.map assignmentOf ++
    ((Tree.preorderAll p.arguments.filters).map comparison ++ p.arguments.orderBy.map ordering)

/-- How the statements of an operation are planned. -/
inductive Stated (p : Planner) (d d' : Draft) : Batch × Option Relations → Prop
  | select {query : Query} {found : Relations} (hoperation : p.operation = .select)
      (hselect : p.select.run d = .ok ((query, found), d')) : Stated p d d' ([.query query], some found)
  | write {result : Batch × Option Relations}
      (hoperation : p.operation = .insert ∨ p.operation = .upsert ∨ p.operation = .sync)
      (hwrite : p.write.run d = .ok (result, d')) : Stated p d d' result
  | update {batch : Batch} (hoperation : p.operation = .update)
      (hupdate : p.update.run d = .ok (batch, d')) : Stated p d d' (batch, none)
  | delete {batch : Batch} (hoperation : p.operation = .delete)
      (hdelete : p.delete.run d = .ok (batch, d')) : Stated p d d' (batch, none)

theorem stated {p : Planner} {result : Batch × Option Relations}
    (hrun : (Plan.statements p).run d = .ok (result, d')) : p.Stated d d' result := by
  unfold Plan.statements at hrun
  cases hoperation : p.operation with
  | select =>
    simp only [hoperation, run_bind_ok, run_pure_ok] at hrun
    obtain ⟨⟨query, found⟩, _, hselect, rfl, rfl⟩ := hrun
    exact .select hoperation hselect
  | insert =>
    rw [hoperation] at hrun
    exact .write (.inl hoperation) hrun
  | upsert =>
    rw [hoperation] at hrun
    exact .write (.inr (.inl hoperation)) hrun
  | sync =>
    rw [hoperation] at hrun
    exact .write (.inr (.inr hoperation)) hrun
  | update =>
    simp only [hoperation, run_bind_ok, run_pure_ok] at hrun
    obtain ⟨batch, _, hupdate, rfl, rfl⟩ := hrun
    exact .update hoperation hupdate
  | delete =>
    simp only [hoperation, run_bind_ok, run_pure_ok] at hrun
    obtain ⟨batch, _, hdelete, rfl, rfl⟩ := hrun
    exact .delete hoperation hdelete

section Operations

variable {p : Planner} {batch : Batch} {relations : Option Relations}

/-- A select is planned as one query, over the relations of its result. -/
theorem select_of_statements (hrun : (Plan.statements p).run d = .ok ((batch, relations), d'))
    (h : p.operation = .select) : ∃ query found, p.select.run d = .ok ((query, found), d') ∧
      batch = [.query query] ∧ relations = some found := by
  cases stated hrun with
  | select _ hselect => exact ⟨_, _, hselect, rfl, rfl⟩
  | write hoperation => simp [h] at hoperation
  | update hoperation | delete hoperation => cases h.symm.trans hoperation

/-- An insert, an upsert or a sync is planned as a write. -/
theorem write_of_statements (hrun : (Plan.statements p).run d = .ok ((batch, relations), d'))
    (h : p.operation = .insert ∨ p.operation = .upsert ∨ p.operation = .sync) :
    p.write.run d = .ok ((batch, relations), d') := by
  cases stated hrun with
  | write _ hwrite => exact hwrite
  | select hoperation | update hoperation | delete hoperation => simp [hoperation] at h

theorem update_of_statements (hrun : (Plan.statements p).run d = .ok ((batch, relations), d'))
    (h : p.operation = .update) : p.update.run d = .ok (batch, d') ∧ relations = none := by
  cases stated hrun with
  | update _ hupdate => exact ⟨hupdate, rfl⟩
  | write hoperation => simp [h] at hoperation
  | select hoperation | delete hoperation => cases h.symm.trans hoperation

theorem delete_of_statements (hrun : (Plan.statements p).run d = .ok ((batch, relations), d'))
    (h : p.operation = .delete) : p.delete.run d = .ok (batch, d') ∧ relations = none := by
  cases stated hrun with
  | delete _ hdelete => exact ⟨hdelete, rfl⟩
  | write hoperation => simp [h] at hoperation
  | select hoperation | update hoperation => cases h.symm.trans hoperation

end Operations

theorem statements_extends (p : Planner) {batch : Batch} {relations : Option Relations}
    (hd : d.Sound) (hrules : d.rules = [])
    (hrun : (Plan.statements p).run d = .ok ((batch, relations), d')) :
    d.Extends p.marked d' ∧ ∀ l ∈ batch.leaves, l.SettledBy d'.rules d'.params := by
  cases stated hrun with
  | select _ hselect =>
    obtain ⟨hext, hsettled⟩ := p.select_extends hd hselect
    refine ⟨hext.mono (List.sublist_append_right _ _), ?_⟩
    intro l hl
    rw [Batch.leaves, List.flatMap_singleton] at hl
    exact hsettled l hl
  | write _ hwrite =>
    obtain ⟨hext, hfills⟩ := p.write_extends hd hwrite
    exact ⟨hext.mono (List.nil_sublist _), fun l hl => (hfills l hl).settledBy _⟩
  | update _ hupdate =>
    obtain ⟨hext, hsettled, _⟩ := p.update_extends hd hrules hupdate
    refine ⟨hext.mono ?_, hsettled⟩
    exact (List.Sublist.refl _).append (List.sublist_append_left _ _)
  | delete _ hdelete =>
    obtain ⟨hext, hfills, _⟩ := p.delete_extends hd hdelete
    refine ⟨hext.mono ?_, fun l hl => (hfills l hl).settledBy _⟩
    exact (List.sublist_append_left _ _).trans (List.sublist_append_right _ _)

/-- Over a sound schema every update assigns by itself, or keeps what the rules assign. -/
theorem statements_keepsAssignment (p : Planner) (hs : p.schema.Sound)
    (htable : p.table ∈ p.schema.tables) {batch : Batch} {relations : Option Relations}
    (hd : d.Sound) (hrules : d.rules = [])
    (hrun : (Plan.statements p).run d = .ok ((batch, relations), d')) :
    ∀ st ∈ batch, st.KeepsAssignment d'.rules := by
  cases stated hrun with
  | select _ hselect =>
    intro st hst
    rw [List.mem_singleton.mp hst]
    trivial
  | write _ hwrite => exact write_keepsAssignment hs htable hwrite _
  | update _ hupdate =>
    obtain ⟨_, _, hkeeps⟩ := p.update_extends hd hrules hupdate
    exact hkeeps
  | delete _ hdelete =>
    obtain ⟨_, _, hkeeps⟩ := p.delete_extends hd hdelete
    exact hkeeps

end Planner

namespace Arguments

/-- The paths of assignments, of all fields of filters and of orderings. -/
def paths (a : Arguments) : List Path :=
  a.set.map Field.path ++
    ((Tree.preorderAll a.filters).map Field.path ++ a.orderBy.map Field.path)

/-- An argument is passed over, pages, or is sorted in as an ordering, an assignment or a filter. -/
theorem add_cases {operation : Operation} {a a' : Arguments} {argument : FieldTree}
    (h : add operation a argument = .ok a') :
    a'.paths = a.paths ∧ a'.filters = a.filters ∨
      a' = { a with orderBy := a.orderBy ++ [argument.label] } ∨
      a' = { a with set := a.set ++ [argument.label] } ∨
      a' = { a with filters := a.filters ++ [argument] } := by
  unfold add at h
  simp only at h
  split at h
  · cases h
    exact Or.inl ⟨rfl, rfl⟩
  · split at h
    · split at h
      · cases h
      · cases h
        exact Or.inl ⟨rfl, rfl⟩
    · split at h
      · split at h
        · cases h
        · cases h
          exact Or.inl ⟨rfl, rfl⟩
      · split at h
        · split at h
          · cases h
          · cases h
            exact Or.inr (Or.inl rfl)
        · split at h
          · split at h
            · cases h
            · cases h
              exact Or.inr (Or.inr (Or.inl rfl))
          · cases h
            exact Or.inr (Or.inr (Or.inr rfl))

/-- An argument is sorted in at most once. -/
theorem count_add {operation : Operation} {a a' : Arguments} {argument : FieldTree}
    (h : add operation a argument = .ok a') (path : Path) :
    a'.paths.count path ≤ a.paths.count path + (argument.preorder.map Field.path).count path := by
  have hlabel : [argument.label.path].count path ≤
      (argument.preorder.map Field.path).count path := by
    apply List.Sublist.count_le
    exact List.singleton_sublist.mpr (List.mem_map_of_mem (Tree.label_mem_preorder argument))
  rcases add_cases h with ⟨hsame, _⟩ | rfl | rfl | rfl
  · rw [hsame]
    omega
  · simp only [paths, List.map_append, List.map_singleton, List.count_append]
    omega
  · simp only [paths, List.map_append, List.map_singleton, List.count_append]
    omega
  · simp only [paths, Tree.preorderAll_eq_flatMap, List.flatMap_append, List.flatMap_singleton,
      List.map_append, List.count_append]
    omega

theorem count_foldlM {operation : Operation} {arguments : List FieldTree} {a a' : Arguments}
    (h : arguments.foldlM (add operation) a = .ok a') (path : Path) :
    a'.paths.count path ≤
      a.paths.count path + ((Tree.preorderAll arguments).map Field.path).count path := by
  induction arguments generalizing a with
  | nil =>
    cases h
    omega
  | cons argument rest ih =>
    rw [List.foldlM_cons] at h
    obtain ⟨between, hbetween, h⟩ := except_bind_ok.mp h
    have hhead := count_add hbetween path
    have htail := ih h
    rw [Tree.preorderAll, List.map_append, List.count_append]
    omega

/-- Where no two fields of the arguments have one path, none is sorted in twice. -/
theorem classify_nodup {operation : Operation} {arguments : List FieldTree} {a : Arguments}
    (h : classify operation arguments = .ok a)
    (hdistinct : ((Tree.preorderAll arguments).map Field.path).Nodup) : a.paths.Nodup := by
  unfold classify at h
  obtain ⟨sorted, hsorted, h⟩ := except_bind_ok.mp h
  have heq : sorted = a := by
    split at h
    · cases h
    · cases h
      rfl
  rw [heq] at hsorted
  rw [List.nodup_iff_count_le_one] at hdistinct ⊢
  intro path
  have hempty : (default : Arguments).paths = [] := rfl
  calc a.paths.count path
      ≤ (default : Arguments).paths.count path +
          ((Tree.preorderAll arguments).map Field.path).count path := count_foldlM hsorted path
    _ = ((Tree.preorderAll arguments).map Field.path).count path := by
      rw [hempty, List.count_nil, Nat.zero_add]
    _ ≤ 1 := hdistinct path

/-- Filters are among the arguments that were declared. -/
theorem mem_of_classify {operation : Operation} {arguments : List FieldTree} {a : Arguments}
    (h : classify operation arguments = .ok a) : ∀ filter ∈ a.filters, filter ∈ arguments := by
  have hsorted : ∀ (rest : List FieldTree) {before after : Arguments},
      (∀ filter ∈ before.filters, filter ∈ arguments) → (∀ argument ∈ rest, argument ∈ arguments) →
      rest.foldlM (add operation) before = .ok after → ∀ filter ∈ after.filters, filter ∈ arguments := by
    intro rest
    induction rest with
    | nil =>
      intro before after hbefore _ hrun
      cases hrun
      exact hbefore
    | cons argument rest ih =>
      intro before after hbefore hrest hrun
      rw [List.forall_mem_cons] at hrest
      rw [List.foldlM_cons] at hrun
      obtain ⟨between, hadd, hrun⟩ := except_bind_ok.mp hrun
      refine ih ?_ hrest.2 hrun
      rcases add_cases hadd with ⟨_, hsame⟩ | rfl | rfl | rfl
      · exact hsame ▸ hbefore
      · exact hbefore
      · exact hbefore
      · exact List.forall_mem_append.mpr ⟨hbefore, List.forall_mem_singleton.mpr hrest.1⟩
  unfold classify at h
  obtain ⟨sorted, hrun, h⟩ := except_bind_ok.mp h
  split at h
  · cases h
  · cases h
    exact hsorted arguments (List.forall_mem_nil _) (fun _ hargument => hargument) hrun

end Arguments

namespace Plan

theorem mem_of_argumentTable {r : Resolver} {arguments : List FieldTree} {t : Table}
    (h : argumentTable r arguments = .ok (some t)) : t ∈ r.schema.tables := by
  induction arguments with
  | nil => cases h
  | cons argument rest ih =>
    unfold argumentTable at h
    split at h
    · obtain ⟨found, hfound, h⟩ := except_bind_ok.mp h
      split at h
      · cases h
        exact Resolver.mem_of_shapeTable hfound
      · exact ih h
    · exact ih h

theorem mem_of_targetTable {r : Resolver} {spec : QuerySpec} {t : Table}
    (h : targetTable r spec = .ok t) : t ∈ r.schema.tables := by
  unfold targetTable at h
  split at h
  · split at h
    · rename_i found hfound
      cases h
      exact Resolver.mem_of_findTable hfound
    · cases h
  · obtain ⟨output, houtput, h⟩ := except_bind_ok.mp h
    split at h
    · cases h
      unfold outputTable at houtput
      split at houtput
      · cases houtput
      · exact Resolver.mem_of_shapeTable houtput
    · obtain ⟨found, hfound, h⟩ := except_bind_ok.mp h
      split at h
      · cases h
        exact mem_of_argumentTable hfound
      · cases h

variable {r : Resolver} {windowAlias : String} {spec : QuerySpec} {plan : Plan}

/-- The planner that a specification is planned with. -/
structure PlannedBy (r : Resolver) (windowAlias : String) (spec : QuerySpec) (p : Planner) : Prop where
  resolver : p.resolver = r
  windowAlias : p.windowAlias = windowAlias
  target : targetTable r spec = .ok p.table
  operation : p.operation = spec.operation
  output : p.output = spec.output
  outputKind : p.outputKind = spec.outputKind
  arguments : Arguments.classify spec.operation spec.arguments.children = .ok p.arguments

/-- The planner of a specification is the only one. -/
theorem PlannedBy.eq {p : Planner} (h : PlannedBy r windowAlias spec p) {table : Table}
    {arguments : Arguments} (htable : targetTable r spec = .ok table)
    (harguments : Arguments.classify spec.operation spec.arguments.children = .ok arguments) :
    p = ⟨r, windowAlias, table, spec.operation, spec.output, spec.outputKind, arguments⟩ := by
  obtain ⟨rfl, rfl, htarget, hoperation, houtput, houtputKind, hclassify⟩ := h
  rw [htable] at htarget
  rw [harguments] at hclassify
  rw [← hoperation, ← houtput, ← houtputKind, Except.ok.inj htarget, Except.ok.inj hclassify]

/-- A plan consists of what the planner of its specification drafts. -/
theorem ofSpec_planner (h : ofSpec r windowAlias spec = .ok plan) :
    ∃ (p : Planner) (d : Draft), PlannedBy r windowAlias spec p ∧
      (statements p).run default = .ok ((plan.batch, plan.relations), d) ∧
      plan.rules = d.rules ∧ plan.params = d.params := by
  unfold ofSpec at h
  obtain ⟨table, htable, h⟩ := except_bind_ok.mp h
  split at h
  · cases h
  · obtain ⟨arguments, harguments, h⟩ := except_bind_ok.mp h
    obtain ⟨⟨⟨batch, relations⟩, d⟩, hrun, h⟩ := except_bind_ok.mp h
    cases h
    exact ⟨_, d, ⟨rfl, rfl, htable, rfl, rfl, rfl, harguments⟩, hrun, rfl, rfl⟩

/-- A specification that is planned has a result that its operation allows. -/
theorem allows_of_ofSpec (h : ofSpec r windowAlias spec = .ok plan) :
    spec.operation.allows spec.outputKind = true := by
  unfold ofSpec at h
  obtain ⟨table, _, h⟩ := except_bind_ok.mp h
  split at h
  · cases h
  · rename_i hallows
    simpa using hallows

/-- A plan consists of what its planner drafts. -/
theorem ofSpec_cases (h : ofSpec r windowAlias spec = .ok plan) :
    ∃ (p : Planner) (d : Draft), p.resolver = r ∧ p.table ∈ r.schema.tables ∧
      Arguments.classify spec.operation spec.arguments.children = .ok p.arguments ∧
      (statements p).run default = .ok ((plan.batch, plan.relations), d) ∧
      plan.rules = d.rules ∧ plan.params = d.params := by
  obtain ⟨p, d, hp, hrest⟩ := ofSpec_planner h
  exact ⟨p, d, hp.resolver, mem_of_targetTable hp.target, hp.arguments, hrest⟩

theorem ofSpec_sound (h : ofSpec r windowAlias spec = .ok plan) : plan.Sound := by
  obtain ⟨p, d, _, _, _, hrun, hrules, hparams⟩ := ofSpec_cases h
  obtain ⟨hext, hsettled⟩ := p.statements_extends Draft.sound_default rfl hrun
  have hd := hext.sound
  exact {
    layered := hrules ▸ hd.layered
    distinct := hparams ▸ hd.distinct
    aside := by
      rw [hrules, hparams]
      exact fun rule hrule name howns => (hd.aside rule hrule name howns).2
    declared := by
      rw [hrules, hparams]
      exact hd.declared
    fits := hrules ▸ hd.fits
    settled := by
      rw [hrules, hparams]
      exact hsettled }

theorem ofSpec_keepsAssignment (hs : r.schema.Sound) (h : ofSpec r windowAlias spec = .ok plan) :
    ∀ st ∈ plan.batch, st.KeepsAssignment plan.rules := by
  obtain ⟨p, d, rfl, htable, _, hrun, hrules, _⟩ := ofSpec_cases h
  rw [hrules]
  exact p.statements_keepsAssignment hs htable Draft.sound_default rfl hrun

/-- Where no two fields of the arguments have one path, no two marked rules do. -/
theorem ofSpec_marks_nodup (h : ofSpec r windowAlias spec = .ok plan)
    (hdistinct : (spec.arguments.preorder.map Field.path).Nodup) :
    ((marks plan.rules).map Prod.snd).Nodup := by
  obtain ⟨p, d, _, _, hclassify, hrun, hrules, _⟩ := ofSpec_cases h
  obtain ⟨more, hmore, hmarked⟩ := (p.statements_extends Draft.sound_default rfl hrun).1.rules
  have hrest : ((Tree.preorderAll spec.arguments.children).map Field.path).Nodup := by
    cases harguments : spec.arguments with
    | node root kids =>
      rw [harguments, Tree.preorder, List.map_cons] at hdistinct
      exact hdistinct.of_cons
  have hpaths : (p.marked.map Prod.snd).Nodup := by
    rw [Planner.marked, List.map_append, List.map_append, List.map_map, List.map_map, List.map_map]
    exact Arguments.classify_nodup hclassify hrest
  rw [hrules, hmore]
  exact hpaths.sublist (hmarked.map Prod.snd)

end Plan

end ShapeSql
