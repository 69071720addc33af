import ShapeSql.Proofs.Bind.LookupRows
import ShapeSql.Proofs.Plan.WrittenOnce

namespace ShapeSql

open Sql Planning

/-- A bound assignment is what its rule makes of it, with the holes in that filled. -/
theorem Sql.HoleFiller.ofSubstitution_assignments {subs : Substitution} {id : HoleId}
    {assignments : List Assignment} (h : subs.find? id = some (.assignments assignments)) :
    ∃ inner, (HoleFiller.ofSubstitution subs).assignments id = assignmentsFilled inner assignments := by
  obtain ⟨inner, hsame⟩ := ofSubstitution_eq_filling subs
  refine ⟨inner, ?_⟩
  rw [hsame, filling]
  simp only [h]

namespace Planner

variable {p : Planner} {d d' : Draft} {rules : List HoleRule} {field : Field} {a : Assignment}

/-- The assignment is left to a rule, which assigns the column of the field unless its value is
absent. -/
def Assigns (p : Planner) (rules : List HoleRule) (field : Field) (a : Assignment) : Prop :=
  ∃ hole column param, a = .hole hole ∧ p.resolver.findColumn p.table field = some column ∧
    ⟨hole, field.path, .assign column.name param field.directives.ignore⟩ ∈ rules

theorem setAssignment_assigns (hrun : (p.setAssignment field).run d = .ok (a, d')) :
    p.Assigns d'.rules field a := by
  unfold setAssignment at hrun
  split at hrun
  · simp only [run_bind_ok, run_throw_ok, false_and, exists_false] at hrun
  · simp only [run_bind_ok, run_lift_ok, run_pure_ok] at hrun
    obtain ⟨column, _, ⟨hcolumn, rfl⟩, name, between, _, hole, after, hhole, rfl, rfl⟩ := hrun
    cases hhole
    exact ⟨_, column, name, rfl, Resolver.findColumn_of_column hcolumn,
      List.mem_append_right _ (List.mem_singleton.mpr rfl)⟩

theorem Assigns.of_extends {marked : List (Place × Path)} (h : p.Assigns d.rules field a)
    (hext : d.Extends marked d') : p.Assigns d'.rules field a := by
  obtain ⟨more, hmore, _⟩ := hext.rules
  obtain ⟨hole, column, param, ha, hcolumn, hrule⟩ := h
  exact ⟨hole, column, param, ha, hcolumn, hmore ▸ List.mem_append_left _ hrule⟩

theorem setAssignments_assigns (hd : d.Sound) {fields : List Field} {assignments : List Assignment}
    (hrun : (fields.mapM p.setAssignment).run d = .ok (assignments, d')) :
    List.Forall₂ (p.Assigns d'.rules) fields assignments := by
  induction fields generalizing d assignments with
  | nil =>
    rw [List.mapM_nil, run_pure_ok] at hrun
    obtain ⟨rfl, rfl⟩ := hrun
    exact .nil
  | cons field fields ih =>
    rw [List.mapM_cons] at hrun
    simp only [run_bind_ok, run_pure_ok] at hrun
    obtain ⟨a, between, ha, rest, after, hrest, rfl, rfl⟩ := hrun
    have hhead := (p.setAssignment_extends hd ha).1
    have htail := (p.setAssignments_extends hhead.sound hrest).1
    exact .cons ((setAssignment_assigns ha).of_extends htail) (ih hhead.sound hrest)

theorem updateBySet_assigns (hd : d.Sound) {batch : Batch}
    (hrun : p.updateBySet.run d = .ok (batch, d')) :
    ∃ assignments filter, batch = [.update ⟨p.table.name, assignments, none, filter⟩] ∧
      List.Forall₂ (p.Assigns d'.rules) p.arguments.set assignments := by
  simp only [updateBySet, run_bind_ok, run_pure_ok] at hrun
  obtain ⟨assignments, between, hassignments, filters, after, hfilters, rfl, rfl⟩ := hrun
  have hset := (p.setAssignments_extends hd hassignments).1
  have hfiltered := (p.rootFilters_extends hset.sound hfilters).1
  exact ⟨assignments, _, rfl,
    (setAssignments_assigns hd hassignments).imp fun _ _ h => h.of_extends hfiltered⟩

/-- The columns that these fields assign, those left out whose values are absent. -/
def assignedColumns (p : Planner) (args : Value) (fields : List Field) : List Column :=
  (fields.filter fun field => !isIgnored field.directives.ignore (args.entry field.path)).filterMap
    (p.resolver.findColumn p.table)

/-- Bound assignments are of the columns of the fields that are not left out. -/
theorem columns_bound {s : Schema} {args : Value} {b : Binding} (hb : b.Binds s args rules)
    {fields : List Field} {assignments : List Assignment}
    (h : List.Forall₂ (p.Assigns rules) fields assignments) :
    (assignmentsFilled (.ofSubstitution b.subs) assignments).filterMap Assignment.column? =
      (p.assignedColumns args fields).map Column.name := by
  induction h with
  | nil => rfl
  | @cons field a fields assignments hassigns _ ih =>
    obtain ⟨hole, column, param, rfl, hcolumn, hrule⟩ := hassigns
    obtain ⟨f, hfill, hfound⟩ := hb.filled _ hrule
    rw [assignedColumns] at ih ⊢
    rw [assignmentsFilled, List.filterMap_append, ih]
    rcases HoleRule.fill_assign hfill with ⟨hignored, rfl⟩ | ⟨hkept, rfl⟩
    · obtain ⟨inner, hnone⟩ := HoleFiller.ofSubstitution_assignments hfound
      rw [hnone, List.filter_cons_of_neg (by simp [hignored])]
      rfl
    · obtain ⟨inner, hset⟩ := HoleFiller.ofSubstitution_assignments hfound
      rw [hset, List.filter_cons_of_pos (by simp [hkept]), List.filterMap_cons, hcolumn]
      rfl

/-- No column is put into twice: the SET arguments that are not left out assign columns that differ,
and no staged table is filled twice. -/
structure FillsOnce (p : Planner) (args : Value) : Prop where
  assigned : p.operation = .update → (p.assignedColumns args p.arguments.set).Nodup
  staged : ∀ t ∈ p.staged, t.FillsOnce

instance (p : Planner) (args : Value) : Decidable (p.FillsOnce args) :=
  decidable_of_iff ((p.operation = .update → (p.assignedColumns args p.arguments.set).Nodup) ∧
    ∀ t ∈ p.staged, t.FillsOnce) ⟨fun h => ⟨h.1, h.2⟩, fun h => ⟨h.assigned, h.staged⟩⟩

/-- An update by SET arguments assigns no column twice exactly if those that are kept differ in their
columns. -/
theorem updateBySet_writesOnce (hnamed : p.schema.NamedApart) (htable : p.table ∈ p.schema.tables)
    {s : Schema} {args : Value} {b : Binding} {batch : Batch}
    (hrun : p.updateBySet.run default = .ok (batch, d')) (hb : b.Binds s args d'.rules) :
    (∀ st ∈ batch.filled b.subs, st.WritesOnce) ↔
      (p.assignedColumns args p.arguments.set).Nodup := by
  obtain ⟨assignments, filter, rfl, hassigns⟩ := updateBySet_assigns Draft.sound_default hrun
  have howned : ∀ column ∈ p.assignedColumns args p.arguments.set, column ∈ p.table.columns := by
    intro column hcolumn
    obtain ⟨field, _, hfound⟩ := List.mem_filterMap.mp hcolumn
    exact Resolver.mem_of_findColumn hfound
  rw [Batch.filled, List.map_singleton, List.forall_mem_singleton,
    ← hnamed.apart_iff htable howned, ← columns_bound hb hassigns]
  exact Statement.writesOnce_iff_apart rfl

end Planner

namespace Compiler

/-- In the statements of a bound batch no list names a column twice exactly if no column is put into
twice. -/
theorem compile_writesOnce {declarations : List TableDeclaration} {schema : Schema}
    {setup : CompilerSetup} {c : Compiler} {spec : QuerySpec} {compiled : Compiled}
    (hschema : Schema.build declarations = .ok schema) (hsetup : setup.schema = some schema)
    (hbuild : setup.build = .ok c) (hcompile : c.compile spec = .ok compiled) :
    ∃ p, Plan.PlannedBy c.resolver c.options.keyWindowAlias spec p ∧
      ∀ args bound, compiled.bind args = .ok bound →
        ∃ batch, compiled.resolved args = .ok batch ∧ batch.render .empty = .ok bound.sql ∧
          ((∀ st ∈ batch, st.WritesOnce) ↔ p.FillsOnce args) := by
  obtain ⟨p, d, hp, hrun, hrules, _, htables, hs, hkeyed, htable⟩ :=
    planner_of_compile hschema hsetup hbuild hcompile
  have hsame := (ofSpec_of_compile hcompile).1
  have hnamed : p.schema.NamedApart := by
    rw [htables, hsame, CompilerSetup.schema_of_build hsetup hbuild]
    exact Schema.build_namedApart hschema
  refine ⟨p, hp, fun args bound hbind => ?_⟩
  obtain ⟨subs, params, batch, hsubs, hresolved, rfl, hrender⟩ := Compiled.resolved_of_bind hbind
  refine ⟨_, hresolved, hrender, ?_⟩
  by_cases hset : p.operation = .update → p.arguments.set = []
  · have honce := Planner.statements_writesOnce hs hkeyed hnamed htable hset hrun
    rw [Batch.writesOnce_filled honce.spelled, honce.once]
    refine ⟨fun h => ⟨fun hupdate => ?_, h⟩, Planner.FillsOnce.staged⟩
    rw [hset hupdate]
    exact List.nodup_nil
  · obtain ⟨hupdate, hnonempty⟩ := Classical.not_imp.mp hset
    obtain ⟨b, _, hb, _, _, _, rfl, _⟩ :=
      Plan.binds_of_substitution (Plan.ofSpec_sound (ofSpec_of_compile hcompile).2) hsubs
    rw [hrules] at hb
    have hstaged : p.staged = [] := Planner.staged_of_set hupdate hnonempty
    have hchange := Planner.updateBySet_of_update (Planner.update_of_statements hrun hupdate).1 hnonempty
    rw [Planner.updateBySet_writesOnce hnamed htable hchange hb]
    exact ⟨fun h => ⟨fun _ => h, hstaged ▸ List.forall_mem_nil _⟩, fun h => h.assigned hupdate⟩

/-- The sync is bound to the orders, and no column is put into twice. -/
def orderOnceTest (c : Compiler) (spec : QuerySpec) (compiled : Compiled) : Bool :=
  orderBoundTest c spec compiled &&
  (Arguments.classify spec.operation spec.arguments.children).toOption.any fun arguments =>
    (Plan.targetTable c.resolver spec).toOption.any fun target =>
      let p : Planner := ⟨c.resolver, c.options.keyWindowAlias, target, spec.operation, spec.output,
        spec.outputKind, arguments⟩
      decide (p.FillsOnce orderArguments)

/-- Orders, customers, lines, tags and their junction are written without naming a column twice. -/
theorem compile_writesOnce_order :
    ∃ schema spec compiled bound batch, Schema.build orderDeclarations = .ok schema ∧
      orderSync.build orderShapes = .ok spec ∧
      (⟨schema, default, .exact⟩ : Compiler).compile spec = .ok compiled ∧
      compiled.bind orderArguments = .ok bound ∧ compiled.resolved orderArguments = .ok batch ∧
      batch.render .empty = .ok bound.sql ∧ ∀ st ∈ batch, st.WritesOnce := by
  obtain ⟨schema, spec, compiled, hschema, hspec, hcompile, htest⟩ :
      ∃ schema spec compiled, Schema.build orderDeclarations = .ok schema ∧
        orderSync.build orderShapes = .ok spec ∧
        (⟨schema, default, .exact⟩ : Compiler).compile spec = .ok compiled ∧
        orderOnceTest ⟨schema, default, .exact⟩ spec compiled = true :=
    exists_compiled (by decide +kernel)
  simp only [orderOnceTest, orderBoundTest, Bool.and_eq_true] at htest
  obtain ⟨⟨_, hbinds⟩, htest⟩ := htest
  obtain ⟨bound, hbind, _⟩ := exists_ok_of_any hbinds
  obtain ⟨arguments, harguments, htest⟩ := exists_ok_of_any htest
  obtain ⟨target, htarget, htest⟩ := exists_ok_of_any htest
  have hbuild : (CompilerSetup.mk (some schema) default (some .exact)).build =
      .ok ⟨schema, default, .exact⟩ := rfl
  obtain ⟨p, hp, honce⟩ := compile_writesOnce hschema rfl hbuild hcompile
  obtain rfl := hp.eq htarget harguments
  obtain ⟨batch, hresolved, hrender, hiff⟩ := honce orderArguments bound hbind
  exact ⟨schema, spec, compiled, bound, batch, hschema, hspec, hcompile, hbind, hresolved, hrender,
    hiff.mpr (of_decide_eq_true htest)⟩

/-- People and tags of a tenant, and the tags that people have, all of one tenant. -/
def tenantDeclarations : List TableDeclaration := [
  ⟨"Person", .table, [⟨"TenantId", .integer 4, false, true, false⟩,
    ⟨"Id", .integer 4, false, true, false⟩, ⟨"Name", .text, false, false, false⟩], []⟩,
  ⟨"Tag", .table, [⟨"TenantId", .integer 4, false, true, false⟩,
    ⟨"Id", .integer 4, false, true, false⟩], []⟩,
  ⟨"PersonTag", .table, [⟨"TenantId", .integer 4, false, true, false⟩,
    ⟨"PersonId", .integer 4, false, true, false⟩, ⟨"TagId", .integer 4, false, true, false⟩],
    [⟨["TenantId", "PersonId"], "Person", []⟩, ⟨["TenantId", "TagId"], "Tag", []⟩]⟩]

def tenantShapes : Shapes := .ofList [
  ⟨"Person", none, [⟨"TenantId", .i32, false, default⟩, ⟨"Id", .i32, false, default⟩,
    ⟨"Tags", .list (.shape "Tag"), false, default⟩]⟩,
  ⟨"Tag", none, [⟨"TenantId", .i32, false, default⟩, ⟨"Id", .i32, false, default⟩]⟩]

/-- A person is inserted with tags. -/
def tenantInsert : SpecDeclaration where
  operation := .insert
  table := some "Person"
  arguments := [⟨"person", .shape "Person", false, default⟩]
  returns := []

def tenantArguments : Value := .record [("person", .record [("TenantId", .i32 1), ("Id", .i32 2),
  ("Tags", .list [.record [("TenantId", .i32 1), ("Id", .i32 3)]])])]

/-- A person is named by either of two arguments. -/
def twiceNamed : SpecDeclaration where
  operation := .update
  table := some "Person"
  arguments := [⟨"Id", .i32, false, default⟩,
    ⟨"First", .text, false, { (default : Directives) with set := true, column := some "Name" }⟩,
    ⟨"Last", .text, false, { (default : Directives) with set := true, column := some "Name" }⟩]
  returns := []

def twiceArguments : Value :=
  .record [("Id", .i32 2), ("First", .text "Ann"), ("Last", .text "Lee")]

/-- The statement is bound, and lists these columns. -/
def listsTest (args : Value) (columns : List String) (_ : Compiler) (_ : QuerySpec)
    (compiled : Compiled) : Bool :=
  ((compiled.bind args).toOption.any fun _ => true) &&
  (compiled.resolved args).toOption.any fun batch =>
    batch.any fun st => decide (columns ∈ st.columnLists)

/-- A statement that lists columns of one name names one twice. -/
theorem exists_written_twice {declarations : List TableDeclaration} {shapes : Shapes}
    {declaration : SpecDeclaration} {args : Value} {columns : List String}
    (h : ((Schema.build declarations).toOption.any fun schema =>
      (declaration.build shapes).toOption.any fun spec =>
        ((⟨schema, default, .exact⟩ : Compiler).compile spec).toOption.any
          (listsTest args columns ⟨schema, default, .exact⟩ spec)) = true) (htwice : ¬Apart columns) :
    ∃ schema spec compiled bound batch, Schema.build declarations = .ok schema ∧
      declaration.build shapes = .ok spec ∧
      (⟨schema, default, .exact⟩ : Compiler).compile spec = .ok compiled ∧
      compiled.bind args = .ok bound ∧ compiled.resolved args = .ok batch ∧
      ∃ st ∈ batch, columns ∈ st.columnLists ∧ ¬st.WritesOnce := by
  obtain ⟨schema, spec, compiled, hschema, hspec, hcompile, htest⟩ := exists_compiled h
  obtain ⟨hbinds, hresolves⟩ := Bool.and_eq_true_iff.mp htest
  obtain ⟨bound, hbind, _⟩ := exists_ok_of_any hbinds
  obtain ⟨batch, hresolved, hlists⟩ := exists_ok_of_any hresolves
  obtain ⟨st, hst, hlist⟩ := List.any_eq_true.mp hlists
  have hmem : columns ∈ st.columnLists := of_decide_eq_true hlist
  exact ⟨schema, spec, compiled, bound, batch, hschema, hspec, hcompile, hbind, hresolved, st, hst,
    hmem, fun honce => htwice (honce columns hmem)⟩

/-- The junction lists the tenant of the person and of the tag, both in one column; and two SET arguments
assign one column. -/
theorem written_twice_tenant :
    (∃ schema spec compiled bound batch, Schema.build tenantDeclarations = .ok schema ∧
      tenantInsert.build tenantShapes = .ok spec ∧
      (⟨schema, default, .exact⟩ : Compiler).compile spec = .ok compiled ∧
      compiled.bind tenantArguments = .ok bound ∧ compiled.resolved tenantArguments = .ok batch ∧
      ∃ st ∈ batch, ["TenantId", "PersonId", "TenantId", "TagId"] ∈ st.columnLists ∧
        ¬st.WritesOnce) ∧
    ∃ schema spec compiled bound batch, Schema.build tenantDeclarations = .ok schema ∧
      twiceNamed.build tenantShapes = .ok spec ∧
      (⟨schema, default, .exact⟩ : Compiler).compile spec = .ok compiled ∧
      compiled.bind twiceArguments = .ok bound ∧ compiled.resolved twiceArguments = .ok batch ∧
      ∃ st ∈ batch, ["Name", "Name"] ∈ st.columnLists ∧ ¬st.WritesOnce :=
  ⟨exists_written_twice (by decide +kernel) (by decide),
    exists_written_twice (by decide +kernel) (by decide)⟩

end Compiler

end ShapeSql
