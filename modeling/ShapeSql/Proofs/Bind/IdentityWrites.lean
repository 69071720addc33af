import ShapeSql.Proofs.Bind.WrittenOnce
import ShapeSql.Proofs.Plan.IdentityWrites

namespace ShapeSql

open Sql Planning

namespace Planner

variable {p : Planner} {d d' : Draft} {b : Binding} {s : Schema} {args : Value} {batch : Batch}

/-- No SET argument that is kept assigns an identity column, and no junction that is written has one in
its keys. -/
structure SparesIdentity (p : Planner) (args : Value) : Prop where
  assigned : p.operation = .update →
    ∀ column ∈ p.assignedColumns args p.arguments.set, column.autoIncrement = false
  paired : p.PairsPlainly

instance (p : Planner) (args : Value) : Decidable (p.SparesIdentity args) :=
  decidable_of_iff ((p.operation = .update →
      ∀ column ∈ p.assignedColumns args p.arguments.set, column.autoIncrement = false) ∧
    p.PairsPlainly) ⟨fun h => ⟨h.1, h.2⟩, fun h => ⟨h.assigned, h.paired⟩⟩

theorem assignedColumns_owned (p : Planner) (args : Value) (fields : List Field) :
    ∀ column ∈ p.assignedColumns args fields, column ∈ p.table.columns := by
  intro column hcolumn
  obtain ⟨field, _, hfound⟩ := List.mem_filterMap.mp hcolumn
  exact Resolver.mem_of_findColumn hfound

/-- A bound update by SET arguments assigns the columns of those that are kept, in one statement. -/
theorem tableWrites_bound (hb : b.Binds s args d'.rules)
    (hrun : p.updateBySet.run default = .ok (batch, d')) :
    ∃ st, batch.filled b.subs = [st] ∧
      st.tableWrites =
        [(p.table.name, (p.assignedColumns args p.arguments.set).map Column.name)] := by
  obtain ⟨assignments, filter, rfl, hassigns⟩ := updateBySet_assigns Draft.sound_default hrun
  refine ⟨_, rfl, ?_⟩
  rw [← columns_bound hb hassigns]
  rfl

theorem updateBySet_sparesIdentity_iff (hkeyed : p.schema.Keyed) (hnamed : p.schema.NamedApart)
    (htable : p.table ∈ p.schema.tables) (hb : b.Binds s args d'.rules)
    (hrun : p.updateBySet.run default = .ok (batch, d')) :
    (∀ st ∈ batch.filled b.subs, st.SparesIdentity p.schema) ↔
      ∀ column ∈ p.assignedColumns args p.arguments.set, column.autoIncrement = false := by
  obtain ⟨st, hbatch, hwrites⟩ := tableWrites_bound hb hrun
  rw [hbatch, List.forall_mem_singleton]
  exact Statement.sparesIdentity_iff hkeyed hnamed htable (p.assignedColumns_owned args _) hwrites

/-- A batch of spelled out assignments spares identity columns filled if it does before. -/
theorem sparesIdentity_filled {subs : Substitution} (h : ∀ st ∈ batch, st.Spelled) :
    (∀ st ∈ batch.filled subs, st.SparesIdentity s) ↔ ∀ st ∈ batch, st.SparesIdentity s := by
  rw [Batch.filled, List.forall_mem_map]
  exact forall₂_congr fun st hst => by
    rw [Statement.SparesIdentity, Statement.tableWrites_filled (h st hst)]
    rfl

end Planner

namespace Compiler

/-- The statements of a bound batch put nothing into an identity column of a table exactly if no SET
argument that is kept assigns one and no junction has one in its keys. -/
theorem compile_sparesIdentity {declarations : List TableDeclaration} {schema : Schema}
    {setup : CompilerSetup} {c : Compiler} {spec : QuerySpec} {compiled : Compiled}
    (hschema : Schema.build declarations = .ok schema) (hsetup : setup.schema = some schema)
    (hbuild : setup.build = .ok c) (hcompile : c.compile spec = .ok compiled) :
    ∃ p, Plan.PlannedBy c.resolver c.options.keyWindowAlias spec p ∧
      ∀ args bound, compiled.bind args = .ok bound →
        ∃ batch, compiled.resolved args = .ok batch ∧ batch.render .empty = .ok bound.sql ∧
          ((∀ st ∈ batch, st.SparesIdentity schema) ↔ p.SparesIdentity args) := by
  obtain ⟨p, d, hp, hrun, hrules, _, htables, hs, hkeyed, htable⟩ :=
    planner_of_compile hschema hsetup hbuild hcompile
  have hbuilt : p.schema = schema := by
    rw [htables, (ofSpec_of_compile hcompile).1, CompilerSetup.schema_of_build hsetup hbuild]
  have hnamed : p.schema.NamedApart := hbuilt ▸ Schema.build_namedApart hschema
  refine ⟨p, hp, fun args bound hbind => ?_⟩
  obtain ⟨subs, params, batch, hsubs, hresolved, rfl, hrender⟩ := Compiled.resolved_of_bind hbind
  refine ⟨_, hresolved, hrender, ?_⟩
  rw [← hbuilt]
  by_cases hset : p.operation = .update → p.arguments.set = []
  · have hspelled := (Planner.statements_writesOnce hs hkeyed hnamed htable hset hrun).spelled
    rw [Planner.sparesIdentity_filled hspelled,
      Planner.statements_sparesIdentity_iff hs hkeyed hnamed htable hset hrun]
    refine ⟨fun h => ⟨fun hupdate => ?_, h⟩, Planner.SparesIdentity.paired⟩
    rw [hset hupdate]
    exact List.forall_mem_nil _
  · obtain ⟨hupdate, hnonempty⟩ := Classical.not_imp.mp hset
    obtain ⟨b, _, hb, _, _, _, rfl, _⟩ :=
      Plan.binds_of_substitution (Plan.ofSpec_sound (ofSpec_of_compile hcompile).2) hsubs
    rw [hrules] at hb
    have hchange := Planner.updateBySet_of_update (Planner.update_of_statements hrun hupdate).1 hnonempty
    rw [Planner.updateBySet_sparesIdentity_iff hkeyed hnamed htable hb hchange]
    exact ⟨fun h => ⟨fun _ => h, .of_unstaged (Planner.staged_of_set hupdate hnonempty)⟩,
      fun h => h.assigned hupdate⟩

/-- The sync is bound to the orders, and spares identity columns. -/
def orderSparesTest (c : Compiler) (spec : QuerySpec) (compiled : Compiled) : Bool :=
  orderBoundTest c spec compiled &&
  (Arguments.classify spec.operation spec.arguments.children).toOption.any fun arguments =>
    (Plan.targetTable c.resolver spec).toOption.any fun target =>
      let p : Planner := ⟨c.resolver, c.options.keyWindowAlias, target, spec.operation, spec.output,
        spec.outputKind, arguments⟩
      decide (p.SparesIdentity orderArguments)

/-- The keys of orders, customers, lines and tags are identity columns. All but the customers come with
theirs, and none is written. -/
theorem compile_sparesIdentity_order :
    ∃ schema spec compiled bound batch, Schema.build orderDeclarations = .ok schema ∧
      orderSync.build orderShapes = .ok spec ∧
      (⟨schema, default, .exact⟩ : Compiler).compile spec = .ok compiled ∧
      compiled.bind orderArguments = .ok bound ∧ compiled.resolved orderArguments = .ok batch ∧
      batch.render .empty = .ok bound.sql ∧ ∀ st ∈ batch, st.SparesIdentity schema := by
  obtain ⟨schema, spec, compiled, hschema, hspec, hcompile, htest⟩ :
      ∃ schema spec compiled, Schema.build orderDeclarations = .ok schema ∧
        orderSync.build orderShapes = .ok spec ∧
        (⟨schema, default, .exact⟩ : Compiler).compile spec = .ok compiled ∧
        orderSparesTest ⟨schema, default, .exact⟩ spec compiled = true :=
    exists_compiled (by decide +kernel)
  simp only [orderSparesTest, orderBoundTest, Bool.and_eq_true] at htest
  obtain ⟨⟨_, hbinds⟩, htest⟩ := htest
  obtain ⟨bound, hbind, _⟩ := exists_ok_of_any hbinds
  obtain ⟨arguments, harguments, htest⟩ := exists_ok_of_any htest
  obtain ⟨target, htarget, htest⟩ := exists_ok_of_any htest
  have hbuild : (CompilerSetup.mk (some schema) default (some .exact)).build =
      .ok ⟨schema, default, .exact⟩ := rfl
  obtain ⟨p, hp, hspares⟩ := compile_sparesIdentity hschema rfl hbuild hcompile
  obtain rfl := hp.eq htarget harguments
  obtain ⟨batch, hresolved, hrender, hiff⟩ := hspares orderArguments bound hbind
  exact ⟨schema, spec, compiled, bound, batch, hschema, hspec, hcompile, hbind, hresolved, hrender,
    hiff.mpr (of_decide_eq_true htest)⟩

/-- Staff with generated numbers, and badges. The junction generates one of its keys. -/
def badgeDeclarations : List TableDeclaration := [
  ⟨"Person", .table, [⟨"Id", .integer 4, false, true, true⟩, ⟨"Name", .text, false, false, false⟩,
    ⟨"Email", .text, false, false, false⟩], []⟩,
  ⟨"Badge", .table, [⟨"Id", .integer 4, false, true, false⟩], []⟩,
  ⟨"PersonBadge", .table, [⟨"PersonId", .integer 4, false, true, false⟩,
    ⟨"BadgeId", .integer 4, false, true, true⟩],
    [⟨["PersonId"], "Person", []⟩, ⟨["BadgeId"], "Badge", []⟩]⟩]

def badgeShapes : Shapes := .ofList [
  ⟨"Person", none, [⟨"Name", .text, false, default⟩, ⟨"Email", .text, false, default⟩,
    ⟨"Badges", .list (.shape "Badge"), false, default⟩]⟩,
  ⟨"Badge", none, [⟨"Id", .i32, false, default⟩]⟩]

/-- A person found by an address gets another name, and another number. -/
def renumbered : SpecDeclaration where
  operation := .update
  table := some "Person"
  arguments := [⟨"Email", .text, false, default⟩,
    ⟨"Name", .text, false, { (default : Directives) with set := true }⟩,
    ⟨"Id", .i32, false, { (default : Directives) with set := true }⟩]
  returns := []

def renumberedArguments : Value :=
  .record [("Email", .text "ann"), ("Name", .text "Ann"), ("Id", .i32 7)]

/-- A person is inserted with badges. -/
def badgeInsert : SpecDeclaration where
  operation := .insert
  table := some "Person"
  arguments := [⟨"person", .shape "Person", false, default⟩]
  returns := []

def badgeArguments : Value := .record [("person", .record [("Name", .text "Ann"),
  ("Email", .text "ann"), ("Badges", .list [.record [("Id", .i32 3)]])])]

/-- The statement is bound, and puts something into these columns, one of which is an identity column. -/
def writesIdentityTest (args : Value) (table : String) (columns : List String) (c : Compiler)
    (_ : QuerySpec) (compiled : Compiled) : Bool :=
  ((compiled.bind args).toOption.any fun _ => true) &&
  (compiled.resolved args).toOption.any fun batch =>
    batch.any fun st => decide ((table, columns) ∈ st.tableWrites ∧ ¬st.SparesIdentity c.schema)

/-- A statement that passes the test writes an identity column. -/
theorem exists_identity_written {declarations : List TableDeclaration} {shapes : Shapes}
    {declaration : SpecDeclaration} {args : Value} {table : String} {columns : List String}
    (h : ((Schema.build declarations).toOption.any fun schema =>
      (declaration.build shapes).toOption.any fun spec =>
        ((⟨schema, default, .exact⟩ : Compiler).compile spec).toOption.any
          (writesIdentityTest args table columns ⟨schema, default, .exact⟩ spec)) = true) :
    ∃ schema spec compiled bound batch, Schema.build declarations = .ok schema ∧
      declaration.build shapes = .ok spec ∧
      (⟨schema, default, .exact⟩ : Compiler).compile spec = .ok compiled ∧
      compiled.bind args = .ok bound ∧ compiled.resolved args = .ok batch ∧
      ∃ st ∈ batch, (table, columns) ∈ st.tableWrites ∧ ¬st.SparesIdentity schema := by
  obtain ⟨schema, spec, compiled, hschema, hspec, hcompile, htest⟩ := exists_compiled h
  obtain ⟨hbinds, hresolves⟩ := Bool.and_eq_true_iff.mp htest
  obtain ⟨bound, hbind, _⟩ := exists_ok_of_any hbinds
  obtain ⟨batch, hresolved, hwrites⟩ := exists_ok_of_any hresolves
  obtain ⟨st, hst, hwritten⟩ := List.any_eq_true.mp hwrites
  exact ⟨schema, spec, compiled, bound, batch, hschema, hspec, hcompile, hbind, hresolved, st, hst,
    of_decide_eq_true hwritten⟩

/-- An update by SET arguments assigns the number of a person, and the rows of a junction have the key
that it generates. -/
theorem identity_written_person :
    (∃ schema spec compiled bound batch, Schema.build badgeDeclarations = .ok schema ∧
      renumbered.build badgeShapes = .ok spec ∧
      (⟨schema, default, .exact⟩ : Compiler).compile spec = .ok compiled ∧
      compiled.bind renumberedArguments = .ok bound ∧
      compiled.resolved renumberedArguments = .ok batch ∧
      ∃ st ∈ batch, ("Person", ["Name", "Id"]) ∈ st.tableWrites ∧ ¬st.SparesIdentity schema) ∧
    ∃ schema spec compiled bound batch, Schema.build badgeDeclarations = .ok schema ∧
      badgeInsert.build badgeShapes = .ok spec ∧
      (⟨schema, default, .exact⟩ : Compiler).compile spec = .ok compiled ∧
      compiled.bind badgeArguments = .ok bound ∧ compiled.resolved badgeArguments = .ok batch ∧
      ∃ st ∈ batch, ("PersonBadge", ["PersonId", "BadgeId"]) ∈ st.tableWrites ∧
        ¬st.SparesIdentity schema :=
  ⟨exists_identity_written (by decide +kernel), exists_identity_written (by decide +kernel)⟩

end Compiler

end ShapeSql
