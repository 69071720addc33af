import ShapeSql.Proofs.Bind.LookupRows
import ShapeSql.Proofs.Bind.Prefix
import ShapeSql.Proofs.Plan.EntityUpdate

namespace ShapeSql

open Sql

namespace WrittenTable

variable {s : Schema} {t : WrittenTable} {w : World} {element : Value} {row : List Expr} {i : Nat}

/-- The row of an element, as the variable holds it. -/
def held (t : WrittenTable) (w : World) (row : List Expr) : Row :=
  t.lookupColumns.zip (row.map (Expr.value w []))

/-- Each written column holds the value of the field that supplies it. -/
theorem RowOf.cell_held (h : t.RowOf w.params i element row) (hapart : t.lookupColumns.Nodup)
    {c : WrittenColumn} (hc : c ∈ t.columns) {field : Path} (hfield : c.source = some field) :
    (t.held w row).cell c.column.name = element.entry field := by
  obtain ⟨k, hk⟩ := List.mem_iff_getElem?.mp hc
  obtain ⟨cell, hcell, hcarries⟩ := getElem?_of_forall₂ h.fields hk
  rw [WrittenColumn.Carries, hfield] at hcarries
  obtain ⟨name, rfl, hvalue⟩ := hcarries
  refine Row.cell_eq ?_ (List.mem_of_getElem? (i := t.numberColumns.length + k) ?_)
  · rw [Record.names, held, List.map_fst_zip]
    · exact hapart
    · rw [List.length_map, h.width]
  · rw [List.getElem?_drop] at hcell
    rw [held, List.getElem?_zip_eq_some, lookupColumns, List.getElem?_append_right (Nat.le_add_right _ _),
      Nat.add_sub_cancel_left, List.getElem?_map, List.getElem?_map, hk, hcell]
    exact ⟨rfl, congrArg some (value_param hvalue)⟩

/-- What an element has for some of the columns, the variable has under their names. -/
theorem Changed.cells_held (h : t.Changed s) (hrow : t.RowOf w.params i element row)
    (hapart : t.lookupColumns.Nodup) (accepts : Column → Bool) :
    WrittenColumn.cells element accepts t.columns =
      ((t.columns.filter fun c => accepts c.column).map WrittenColumn.column).map fun column =>
        (column.name, (t.held w row).cell column.name) := by
  rw [WrittenColumn.cells_eq h.supplied, List.map_map]
  refine List.map_congr_left fun c hc => ?_
  have hmem := List.mem_of_mem_filter hc
  obtain ⟨field, hfield⟩ := Option.isSome_iff_exists.mp (h.supplied c hmem)
  rw [Function.comp_apply, hrow.cell_held hapart hmem hfield, hfield, Option.getD_some]

theorem declareLookup_eq (t : WrittenTable) : ∃ columns, t.declareLookup = .declare t.lookup columns ∧
    columns.map ColumnDef.name = t.variableColumns := by
  have hlists := columnLists_declareLookup t
  rw [declareLookup, Statement.columnLists, List.cons.injEq] at hlists
  exact ⟨_, rfl, hlists.1⟩

/-- What the update of the table by its variable finds, and what it assigns, is the change that the one
row of the variable stands for. -/
theorem Changed.updated_rows (hs : s.Sound) (hnamed : s.NamedApart) (h : t.Changed s)
    (hrow : t.RowOf w.params i element row) (hapart : t.lookupColumns.Nodup) {after : World}
    (hheld : after.database.tableVars t.lookup = [t.held w row]) {update : Statement}
    (hupdate : t.updateRows = some update) (f : HoleFiller) :
    ∃ u, update.filled f = .update u ∧ u.table? = some t.table.name ∧
      after.updated u = after.changed (t.change element) := by
  obtain ⟨_, rfl⟩ := updateRows_inv hupdate
  refine ⟨_, rfl, (Update.table?_of_base rfl rfl).trans rfl, ?_⟩
  refine (updated_joined hheld (by decide) t.table.keyColumns Column.name t.updateColumns
    Column.name).trans (after.changed_perm rfl ?_ ?_)
  · rw [change, h.cells_held hrow hapart]
    exact (h.complete.keyColumns_perm hs hnamed h.table).symm.map _
  · refine Eq.trans ?_ (h.cells_held hrow hapart Column.isUpdated).symm
    show t.updateColumns.map _ = _
    rw [updateColumns, List.filter_map]
    rfl

/-- A list that holds an element alone has the change made that the element stands for. -/
theorem Changed.carriesOut_rows (hs : s.Sound) (hnamed : s.NamedApart) (h : t.Changed s)
    {params : Params} (hrow : t.RowOf params i element row) {update : Statement}
    (hupdate : t.updateRows = some update) (f : HoleFiller) :
    Batch.CarriesOut [t.declareLookup, .insert (.tableVar t.lookup) t.lookupColumns (.rows [row]),
      update.filled f] params (t.change element) ↔ t.Numbered := by
  obtain ⟨columns, hdeclare, hnames⟩ := t.declareLookup_eq
  have hiff := variableColumns_apart_iff hnamed h.table h.complete.owned
  rw [← hnames] at hiff
  rw [hdeclare]
  constructor
  · exact fun hcarries => hiff.mp hcarries.apart
  · rintro hnumbered w rfl
    have hapart := hiff.mpr hnumbered
    let empty := w.holding t.lookup []
    let filled := empty.holding t.lookup
      (empty.database.tableVars t.lookup ++ [t.held empty row])
    have hheld : filled.database.tableVars t.lookup = [t.held empty row] := by
      simp only [filled, empty, World.holding, if_true, List.nil_append]
    have hdistinct : t.lookupColumns.Nodup := by
      rw [hnames] at hapart
      exact hapart.of_map
    obtain ⟨u, hu, htable, hupdated⟩ :=
      h.updated_rows hs hnamed (w := empty) hrow hdistinct hheld hupdate f
    have hdeclared : w.prepared? (.declare t.lookup columns) = some empty := by
      rw [World.prepared?, if_pos hapart]
    have hinserted : empty.prepared? (.insert (.tableVar t.lookup) t.lookupColumns (.rows [row])) =
        some filled := rfl
    rw [hu]
    exact .prepare hdeclared (.prepare hinserted (.update htable hupdated))

end WrittenTable

section Yields

/-- The values are bound, and what the text is written from has the property with its parameters. -/
def Compiled.Yields (c : Compiled) (args : Value) (P : Batch → Params → Prop) : Prop :=
  ∃ bound batch, c.bind args = .ok bound ∧ c.resolved args = .ok batch ∧
    batch.render .empty = .ok bound.sql ∧ P batch bound.params

/-- Where rules are bound and parameters have their values, a statement is yielded. -/
theorem Compiled.yields_of_bound {c : Compiled} {args : Value} {P : Batch → Params → Prop}
    (hplan : c.plan.Sound) (hkeeps : ∀ st ∈ c.plan.batch, st.KeepsAssignment c.plan.rules)
    (hrecord : args.isRecord = true) {b : Binding} (hb : Binding.ofRules c.schema c.plan.rules args = .ok b)
    (hassigned : b.assigned ≠ some false) {declared : Params}
    (hdeclared : b.declared c.plan.params args = .ok declared)
    (hP : ∀ subs params, c.plan.substitution c.schema args = .ok (subs, params) →
      P (c.plan.batch.filled subs) params) : c.Yields args P := by
  obtain ⟨bound, hbind⟩ := hplan.bind_ok hkeeps (by simp [hrecord]) hb hassigned hdeclared
  obtain ⟨subs, params, batch, hsubs, hresolved, rfl, hrender⟩ := Compiled.resolved_of_bind hbind
  obtain ⟨others, hothers⟩ := Plan.substitution_of_bind hbind
  cases hsubs.symm.trans hothers
  exact ⟨bound, _, hbind, hresolved, hrender, hP subs _ hsubs⟩

/-- Parameters that take their values as they are always have them. -/
theorem Binding.declared_ok {params : List Param} (h : ∀ q ∈ params, q.transform = .asIs)
    (b : Binding) (args : Value) : ∃ bound, b.declared params args = .ok bound := by
  have hall : ∀ q ∈ params.filter fun q => !b.removed.contains q.name, q.transform = .asIs :=
    fun q hq => h q (List.mem_of_mem_filter hq)
  unfold declared
  generalize (params.filter fun q => !b.removed.contains q.name) = kept at hall
  generalize ([] : Params) = start
  induction kept generalizing start with
  | nil => exact ⟨start, rfl⟩
  | cons q kept ih =>
    rw [List.forall_mem_cons] at hall
    obtain ⟨bound, hbound⟩ := ih hall.2 (Record.insert start q.name (args.entry q.path))
    refine ⟨bound, ?_⟩
    rw [List.foldlM_cons, hall.1]
    exact hbound

/-- Without rules, parameters that take their values as they are read their arguments. -/
theorem Plan.Sound.reads {plan : Plan} (hplan : plan.Sound) (hrules : plan.rules = []) {s : Schema}
    {args : Value} {subs : Substitution} {params : Params}
    (h : plan.substitution s args = .ok (subs, params)) :
    ∀ q ∈ plan.params, q.transform = .asIs → params.getExact? q.name = some (args.entry q.path) := by
  intro q hq hform
  obtain ⟨b, declared, hb, _, _, hdeclared, _, _, rfl⟩ := hplan.substitution_inv h
  rw [hrules] at hb
  cases hb
  obtain ⟨value, hvalue, hread⟩ := Binding.declared_read hplan.distinct hdeclared hq List.not_mem_nil
  rw [hform] at hvalue
  rw [Record.getExact?_append, hread, Except.ok.inj hvalue]
  rfl

end Yields

section Entities

/-- The rows of a list that has elements are bound. -/
theorem LookupFill.ofRules_ok (f : LookupFill) (s : Schema) {path : Path} {args : Value}
    (h : (args.entry path).presentItems ≠ []) :
    ∃ b, Binding.ofRules s [f.rule path] args = .ok b ∧ b.assigned = none := by
  have hsome : (f.table.rowsSource f.base).fill path (args.entry path) =
      .ok (RowsSource.fillingOf (f.cells (args.entry path))) := by
    exact RowsSource.fill_ok_iff.mpr ⟨fun _ => h, nofun, rfl⟩
  exact ⟨_, except_bind_ok.mpr ⟨_, except_bind_ok.mpr ⟨_, mapError_ok.mpr hsome, rfl⟩, rfl⟩, rfl⟩

theorem Planner.params_fillLookup {t : WrittenTable} {path : Path} {d d' : Draft} {fill : Statement}
    (h : (fillLookup t path).run d = .ok (fill, d')) : d'.params = d.params := by
  obtain ⟨base, _, hbase, hole, hhole, _⟩ := fillLookup_inv h
  cases hbase
  cases hhole
  rfl

/-- How an update by an entity is planned: over the table that the entity is written to, by a variable for
a list and without one for a single entity. -/
structure Compiled.UpdatedBy (c : Compiled) (p : Planner) (entity : FieldTree) (t : WrittenTable) : Prop where
  sound : c.plan.Sound
  keeps : ∀ st ∈ c.plan.batch, st.KeepsAssignment c.plan.rules
  table : t.table = p.table
  changed : t.Changed p.schema
  planned : ∃ d : Draft, c.plan.rules = d.rules ∧ c.plan.params = d.params ∧
    ((∃ fill update, entity.label.isList = true ∧
        (Planner.fillLookup t entity.label.path).run default = .ok (fill, d) ∧
        t.updateRows = some update ∧ c.plan.batch = [t.declareLookup, fill, update]) ∨
      ∃ assignments filters, entity.label.isList = false ∧
        (p.entityColumns entity.label.path t.columns).run default = .ok ((assignments, filters), d) ∧
        c.plan.batch = p.updateTarget assignments filters)

namespace Compiled.UpdatedBy

variable {p : Planner} {c : Compiled} {entity : FieldTree} {t : WrittenTable} {args element : Value}

/-- A single entity is bound to the change that it stands for. -/
theorem yields_single (h : c.UpdatedBy p entity t) (hsingle : entity.label.isList = false)
    (hrecord : args.isRecord = true) :
    c.Yields args fun batch params =>
      batch.CarriesOut params (t.change (args.entry entity.label.path)) := by
  obtain ⟨d, hrules, hparams, ⟨_, _, hlist, _⟩ | ⟨assignments, filters, _, hrun, hbatch⟩⟩ := h.planned
  · rw [hsingle] at hlist
    cases hlist
  obtain ⟨_, hnone, _⟩ := p.entityColumns_extends Draft.sound_default hrun
  obtain ⟨hforms, hreads⟩ := Planner.entityColumns_reads Draft.sound_default hrun
  have hempty : c.plan.rules = [] := hrules.trans hnone
  have hasIs : ∀ q ∈ c.plan.params, q.transform = .asIs := fun q hq =>
    (hforms q (hparams ▸ hq)).resolve_left List.not_mem_nil
  obtain ⟨declared, hdeclared⟩ := Binding.declared_ok hasIs default args
  have hbound : Binding.ofRules c.schema c.plan.rules args = .ok default := by
    rw [hempty]
    rfl
  refine yields_of_bound h.sound h.keeps hrecord hbound nofun hdeclared fun subs params hsubs => ?_
  have hread := h.sound.reads hempty hsubs
  rw [hparams] at hread
  obtain ⟨hkey, hassigned⟩ := hreads params args hread
  rw [hbatch, show p.updateTarget assignments filters =
    [.update ⟨(t.change (args.entry entity.label.path)).table, assignments, none, Expr.allOf? filters⟩] by
      rw [WrittenTable.change, h.table, Planner.updateTarget]]
  rw [← h.table] at hkey
  exact carriesOut_update hkey hassigned

/-- A list that holds an entity alone is bound to the change that the entity stands for, unless a written
column is named like the numbers of rows. -/
theorem yields_list (h : c.UpdatedBy p entity t) (hs : p.schema.Sound) (hnamed : p.schema.NamedApart)
    (hlist : entity.label.isList = true) (hrecord : args.isRecord = true)
    (hvalue : args.entry entity.label.path = .list [element]) (helement : element.isNull = false) :
    c.Yields args fun batch params => batch.CarriesOut params (t.change element) ↔ t.Numbered := by
  obtain ⟨d, hrules, hparams, ⟨fill, update, _, hrun, hupdate, hbatch⟩ | ⟨_, _, hsingle, _⟩⟩ := h.planned
  swap
  · rw [hlist] at hsingle
    cases hsingle
  obtain ⟨f, rfl, rfl, hrule, _⟩ := Planner.fillLookup_eq hrun
  have hrules : c.plan.rules = [f].map (LookupFill.rule entity.label.path) := hrules.trans hrule
  have hnone : c.plan.params = [] := hparams.trans (Planner.params_fillLookup hrun)
  have hpresent : (args.entry entity.label.path).presentItems ≠ [] := by
    rw [hvalue]
    simp [Value.presentItems, Value.items, helement]
  obtain ⟨b, hb, hassigned⟩ := f.ofRules_ok c.schema hpresent
  have hbound : Binding.ofRules c.schema c.plan.rules args = .ok b := hrules ▸ hb
  have hdeclared : b.declared c.plan.params args = .ok [] := by
    rw [hnone]
    rfl
  refine yields_of_bound h.sound h.keeps hrecord hbound (by simp [hassigned]) hdeclared
    fun subs params hsubs => ?_
  obtain ⟨hfound, hadded⟩ := Plan.rows_bound h.sound hrules (List.nodup_singleton _) hsubs f
    (List.mem_singleton.mpr rfl)
  have helements : Value.elementsAlong f.table.levels (args.entry entity.label.path) =
      [([0], element)] := by
    rw [hvalue, h.changed.levels]
    simp [Value.elementsAlong, Value.numbered, Value.items, helement]
  obtain ⟨row, hrow⟩ : ∃ row, f.rows (args.entry entity.label.path) = [row] :=
    List.length_eq_one_iff.mp (by rw [f.length_rows, helements]; rfl)
  have hrowOf : f.table.RowOf params 0 element row :=
    LookupFill.rowOf hadded (by rw [helements]; rfl) (by rw [hrow]; rfl)
  have hfilled : Batch.filled [f.table.declareLookup, f.statement, update] subs =
      [f.table.declareLookup, .insert (.tableVar f.table.lookup) f.table.lookupColumns (.rows [row]),
        update.filled (.ofSubstitution subs)] := by
    rw [Batch.filled, List.map_cons, List.map_cons, List.map_singleton, f.filled_statement hfound, hrow]
    rfl
  rw [hbatch, hfilled]
  exact h.changed.carriesOut_rows hs hnamed hrowOf hupdate _

end Compiled.UpdatedBy

/-- Only a record has something at a name. -/
theorem Value.isRecord_of_entry {v : Value} (step : String) (h : v.entry ⟨[step]⟩ ≠ .null) :
    v.isRecord = true := by
  cases v with
  | record members => rfl
  | _ => exact absurd rfl h

theorem Value.not_isNull_of_isRecord {v : Value} (h : v.isRecord = true) : v.isNull = false := by
  cases v with
  | record members => rfl
  | _ => cases h

end Entities

namespace Compiler

variable {tables : List TableDeclaration} {schema : Schema} {setup : CompilerSetup} {c : Compiler}
  {spec spec' : QuerySpec} {compiled compiled' : Compiled}

/-- An update with one argument that has a shape, apart from excluded ones, is planned by this entity. -/
theorem updatedBy_of_compile (hschema : Schema.build tables = .ok schema)
    (hsetup : setup.schema = some schema) (hbuild : setup.build = .ok c)
    (hcompile : c.compile spec = .ok compiled) (hupdate : spec.operation = .update)
    {before after : List FieldTree} {argument : FieldTree}
    (hchildren : spec.arguments.children = before ++ argument :: after)
    (hexcluded : ∀ t ∈ before ++ after, t.label.directives.exclude = true)
    (hshape : argument.label.isScalar = false) :
    ∃ p tree, Plan.PlannedBy c.resolver c.options.keyWindowAlias spec p ∧ p.entity = .ok argument ∧
      p.writtenTree argument = .ok tree ∧ p.schema = schema ∧
      compiled.UpdatedBy p argument (Planner.updatedTable tree.label) := by
  obtain ⟨p, d, hp, hrun, hrules, hparams, htables, hs, hkeyed, htable⟩ :=
    planner_of_compile hschema hsetup hbuild hcompile
  obtain ⟨hsame, hplanned⟩ := ofSpec_of_compile hcompile
  have hbuilt : p.schema = schema := by
    rw [htables, hsame, CompilerSetup.schema_of_build hsetup hbuild]
  have hresolver : c.resolver.schema.Sound := hp.resolver ▸ hs
  have hoperation : p.operation = .update := hp.operation.trans hupdate
  have halone := hp.arguments
  rw [hchildren] at halone
  have halone := Arguments.classify_alone hexcluded halone
  rw [← hp.operation] at halone
  obtain ⟨hrun, hentity⟩ :=
    Planner.update_byEntity (Planner.update_of_statements hrun hoperation).1 halone hshape
  obtain ⟨entity, tree, hfound, htree, hcheck, hcases⟩ := p.updateByEntity_cases hrun
  obtain rfl := hentity entity hfound
  have hlaid := Planner.writtenTree_laid hs hkeyed htable htree
  refine ⟨p, tree, hp, hfound, htree, hbuilt, Plan.ofSpec_sound hplanned,
    Plan.ofSpec_keepsAssignment hresolver hplanned, hlaid.table,
    Planner.updatedTable_changed hs hlaid htable hcheck, _, hrules, hparams, ?_⟩
  rcases hcases with ⟨fill, update, hlist, hfill, hrows, heq⟩ |
    ⟨assignments, filters, hsingle, hcolumns, _, heq⟩
  · exact Or.inl ⟨fill, update, hlist, hfill, hrows, heq⟩
  · exact Or.inr ⟨assignments, filters, hsingle, hcolumns, heq⟩

/-- An update by an entity and one by a list of such entities change the same columns of the same rows by
the same values where the list holds the one entity alone. They do so unless a column that the entity
supplies is named like the number of a row in the variable, which the database then refuses. -/
theorem compile_updatesAlike {shapes : Shapes} {table : Option String} {returns : List Returns}
    {before after : List FieldDef} {one many : FieldDef} {name : String}
    (hschema : Schema.build tables = .ok schema) (hsetup : setup.schema = some schema)
    (hbuild : setup.build = .ok c) (hone : one.type = .shape name)
    (hmany : many.type = .list (.shape name)) (hdirectives : one.directives = many.directives)
    (hexcluded : ∀ f ∈ before ++ after, f.directives.exclude = true)
    (hspec : (SpecDeclaration.mk .update table (before ++ one :: after) returns).build shapes = .ok spec)
    (hspec' : (SpecDeclaration.mk .update table (before ++ many :: after) returns).build shapes =
      .ok spec')
    (hcompile : c.compile spec = .ok compiled) (hcompile' : c.compile spec' = .ok compiled') :
    ∃ p entity tree t, Plan.PlannedBy c.resolver c.options.keyWindowAlias spec p ∧
      p.entity = .ok entity ∧ p.writtenTree entity = .ok tree ∧ Planner.updatedTable tree.label = t ∧
      ∀ e, (t.change e).table = p.table.name ∧
        ((t.change e).key.map Prod.fst).Perm (p.table.keyColumns.map Column.name) ∧
        ∀ args args', e.isRecord = true → args.entry ⟨[one.name]⟩ = e →
          args'.entry ⟨[many.name]⟩ = .list [e] →
          (compiled.Yields args fun batch params => batch.CarriesOut params (t.change e)) ∧
            compiled'.Yields args' fun batch params =>
              batch.CarriesOut params (t.change e) ↔ t.Numbered := by
  obtain ⟨hoperation, htable, hfields, houtput⟩ := SpecDeclaration.build_parts hspec
  obtain ⟨hoperation', htable', hfields', houtput'⟩ := SpecDeclaration.build_parts hspec'
  have hshape : one.type.shapeName? = many.type.shapeName? := by
    rw [hone, hmany]
    rfl
  obtain ⟨others, others', argument, argument', halike, hdeclared⟩ :=
    FieldTree.ofFields_alike hshape hdirectives hfields hfields'
  have hothers : ∀ t ∈ others ++ others', t.label.directives.exclude = true := by
    intro t ht
    obtain ⟨f, hf, hsame⟩ := hdeclared t ht
    rw [hsame, hexcluded f hf]
  obtain ⟨_, _, hlabel⟩ := halike.placed
  obtain ⟨_, _, hlabel'⟩ := halike.placed'
  have htype : argument.label.type = .shape name := by rw [hlabel, ← hone]; rfl
  have htype' : argument'.label.type = .list (.shape name) := by rw [hlabel', ← hmany]; rfl
  have hpath : argument.label.path = ⟨[one.name]⟩ := by rw [hlabel]; rfl
  have hpath' : argument'.label.path = ⟨[many.name]⟩ := by rw [hlabel']; rfl
  obtain ⟨p, tree, hp, hentity, htree, rfl, hupdated⟩ := updatedBy_of_compile hschema hsetup hbuild
    hcompile hoperation halike.children hothers (by rw [Field.isScalar, htype]; rfl)
  obtain ⟨q, tree', hq, _, htree', hbuilt, hupdated'⟩ := updatedBy_of_compile hschema hsetup hbuild
    hcompile' hoperation' halike.children' hothers (by rw [Field.isScalar, htype']; rfl)
  have htarget : q.table = p.table :=
    hp.table_alike hq (htable.trans htable'.symm) (houtput.trans houtput'.symm) halike.labels
  have hlabels : tree'.label = tree.label :=
    Planner.writtenTree_alike (hq.resolver.trans hp.resolver.symm) htarget halike.below htree htree'
  rw [hlabels] at hupdated'
  have hs : p.schema.Sound := Schema.build_sound hschema
  have hnamed : p.schema.NamedApart := Schema.build_namedApart hschema
  refine ⟨p, argument, tree, _, hp, hentity, htree, rfl, fun e => ⟨congrArg Table.name hupdated.table,
    hupdated.table ▸ hupdated.changed.key_perm hs hnamed e, fun args args' he hargs hargs' => ?_⟩⟩
  constructor
  · have hrecord : args.isRecord = true := Value.isRecord_of_entry one.name fun hnull => by
      rw [← hargs, hnull] at he
      cases he
    have hyields := hupdated.yields_single (by rw [Field.isList, htype]; rfl) hrecord
    rwa [hpath, hargs] at hyields
  · have hrecord' : args'.isRecord = true := Value.isRecord_of_entry many.name fun hnull => by
      cases hargs'.symm.trans hnull
    exact hupdated'.yields_list (hbuilt ▸ hs) (hbuilt ▸ hnamed) (by rw [Field.isList, htype']; rfl)
      hrecord' (hpath' ▸ hargs') (Value.not_isNull_of_isRecord he)

/-- Residents of several tenants, whose town is a column of theirs and a shape of its own. -/
def residentDeclarations : List TableDeclaration := [
  ⟨"Resident", .table, [⟨"TenantId", .integer 4, false, true, false⟩, ⟨"Id", .integer 4, false, true, false⟩,
    ⟨"Name", .text, false, false, false⟩, ⟨"Town", .text, false, false, false⟩], []⟩]

def residentShapes : Shapes := .ofList [
  ⟨"Resident", none, [⟨"Name", .text, false, default⟩, ⟨"Id", .i32, false, default⟩,
    ⟨"Address", .shape "Address", false, default⟩, ⟨"TenantId", .i32, false, default⟩]⟩,
  ⟨"Address", none, [⟨"Town", .text, false, default⟩]⟩]

def residentField : FieldDef := ⟨"resident", .shape "Resident", false, default⟩

def residentsField : FieldDef := ⟨"residents", .list (.shape "Resident"), false, default⟩

/-- An update of residents by this argument. -/
def residentUpdate (argument : FieldDef) : SpecDeclaration := ⟨.update, some "Resident", [argument], []⟩

/-- A resident, the names of whose fields are written in another case. -/
def resident : Value := .record [("name", .text "Ann"), ("id", .i32 2), ("tenantid", .i32 1),
  ("address", .record [("town", .text "Ulm")])]

/-- A resident is named by the number of the tenant and that of the resident. -/
def residentChange : RowChange :=
  ⟨"Resident", [("Id", .i32 2), ("TenantId", .i32 1)], [("Name", .text "Ann"), ("Town", .text "Ulm")]⟩

/-- The resident stands for the change, and no column is named like the numbers of rows. -/
def residentTest (c : Compiler) (spec : QuerySpec) (_ : Compiled) : Bool :=
  (Arguments.classify spec.operation spec.arguments.children).toOption.any fun arguments =>
    (Plan.targetTable c.resolver spec).toOption.any fun target =>
      let p : Planner := ⟨c.resolver, c.options.keyWindowAlias, target, spec.operation, spec.output,
        spec.outputKind, arguments⟩
      p.entity.toOption.any fun entity => (p.writtenTree entity).toOption.any fun tree =>
        let t := Planner.updatedTable tree.label
        decide (t.change resident = residentChange ∧ t.FillsOnce)

/-- A resident and a list of the resident alone change the name and the town, found by both numbers. -/
theorem compile_updatesAlike_resident :
    ∃ schema spec spec' compiled compiled', Schema.build residentDeclarations = .ok schema ∧
      (residentUpdate residentField).build residentShapes = .ok spec ∧
      (residentUpdate residentsField).build residentShapes = .ok spec' ∧
      (⟨schema, default, .exact⟩ : Compiler).compile spec = .ok compiled ∧
      (⟨schema, default, .exact⟩ : Compiler).compile spec' = .ok compiled' ∧
      (compiled.Yields (.record [("resident", resident)]) fun batch params =>
        batch.CarriesOut params residentChange) ∧
      compiled'.Yields (.record [("residents", .list [resident])]) fun batch params =>
        batch.CarriesOut params residentChange := by
  obtain ⟨schema, spec, compiled, hschema, hspec, hcompile, htest⟩ :
      ∃ schema spec compiled, Schema.build residentDeclarations = .ok schema ∧
        (residentUpdate residentField).build residentShapes = .ok spec ∧
        (⟨schema, default, .exact⟩ : Compiler).compile spec = .ok compiled ∧
        residentTest ⟨schema, default, .exact⟩ spec compiled = true :=
    exists_compiled (by decide +kernel)
  obtain ⟨schema', spec', compiled', hschema', hspec', hcompile', _⟩ :
      ∃ schema spec compiled, Schema.build residentDeclarations = .ok schema ∧
        (residentUpdate residentsField).build residentShapes = .ok spec ∧
        (⟨schema, default, .exact⟩ : Compiler).compile spec = .ok compiled ∧
        residentTest ⟨schema, default, .exact⟩ spec compiled = true :=
    exists_compiled (by decide +kernel)
  obtain rfl : schema = schema' := Except.ok.inj (hschema.symm.trans hschema')
  have hbuild : (CompilerSetup.mk (some schema) default (some .exact)).build =
      .ok ⟨schema, default, .exact⟩ := rfl
  have hdirectives : residentField.directives = residentsField.directives := rfl
  have hone : (SpecDeclaration.mk .update (some "Resident") ([] ++ residentField :: []) []).build
      residentShapes = .ok spec := hspec
  have hmany : (SpecDeclaration.mk .update (some "Resident") ([] ++ residentsField :: []) []).build
      residentShapes = .ok spec' := hspec'
  obtain ⟨p, entity, tree, t, hp, hentity, htree, rfl, hchange⟩ :=
    compile_updatesAlike hschema rfl hbuild rfl rfl hdirectives (List.forall_mem_nil _) hone hmany hcompile
      hcompile'
  obtain ⟨arguments, harguments, htest⟩ := exists_ok_of_any htest
  obtain ⟨target, htarget, htest⟩ := exists_ok_of_any htest
  obtain rfl := hp.eq htarget harguments
  obtain ⟨entity', hentity', htest⟩ := exists_ok_of_any htest
  cases hentity.symm.trans hentity'
  obtain ⟨tree', htree', htest⟩ := exists_ok_of_any htest
  cases htree.symm.trans htree'
  obtain ⟨hresident, hfills⟩ := of_decide_eq_true htest
  obtain ⟨-, -, hyields⟩ := hchange resident
  obtain ⟨hchanges, bound, batch, hbind, hresolved, hrender, hiff⟩ :=
    hyields (.record [("resident", resident)]) (.record [("residents", .list [resident])]) rfl rfl rfl
  rw [hresident] at hchanges hiff
  exact ⟨schema, spec, spec', compiled, compiled', hschema, hspec, hspec', hcompile, hcompile', hchanges,
    bound, batch, hbind, hresolved, hrender, hiff.mpr hfills.toNumbered⟩

/-- A ranking, one column of which is named like the numbers of rows. -/
def rankingDeclarations : List TableDeclaration := [
  ⟨"Ranking", .table, [⟨"Id", .integer 4, false, true, false⟩, ⟨"__index", .integer 4, false, false, false⟩],
    []⟩]

def rankingShapes : Shapes := .ofList [
  ⟨"Ranking", none, [⟨"Id", .i32, false, default⟩, ⟨"__index", .i32, false, default⟩]⟩]

def rankingField : FieldDef := ⟨"ranking", .shape "Ranking", false, default⟩

def rankingsField : FieldDef := ⟨"rankings", .list (.shape "Ranking"), false, default⟩

/-- An update of rankings by this argument. -/
def rankingUpdate (argument : FieldDef) : SpecDeclaration := ⟨.update, some "Ranking", [argument], []⟩

def ranking : Value := .record [("Id", .i32 1), ("__index", .i32 7)]

def rankingChange : RowChange := ⟨"Ranking", [("Id", .i32 1)], [("__index", .i32 7)]⟩

/-- What a batch changes that only sets a column of a table, where another has a value. -/
def soleChange? (params : Params) : Batch → Option RowChange
  | [.update ⟨table, [.set column (.param assigned)], none,
      some (.compare (.column (some (.source source)) key) .eq (.param name))⟩] =>
    if source = table then
      (params.getExact? name).bind fun found =>
        (params.getExact? assigned).map fun value => ⟨table, [(key, found)], [(column, value)]⟩
    else none
  | _ => none

theorem carriesOut_of_soleChange {params : Params} {batch : Batch} {change : RowChange}
    (h : soleChange? params batch = some change) : batch.CarriesOut params change := by
  unfold soleChange? at h
  split at h
  · rename_i table column assigned source key name
    split at h
    · rename_i hsource
      obtain ⟨found, hfound, h⟩ := Option.bind_eq_some_iff.mp h
      obtain ⟨value, hvalue, rfl⟩ := Option.map_eq_some_iff.mp h
      subst hsource
      have hkey : List.Forall₂ (Expr.ComparesTo params source) [(key, found)]
          [.eq (.columnOf source key) (.param name)] := .cons ⟨name, rfl, hfound⟩ .nil
      have hassigned : List.Forall₂ (Assignment.SetsTo params) [(column, value)]
          [.set column (.param assigned)] := .cons ⟨assigned, rfl, hvalue⟩ .nil
      exact carriesOut_update (c := ⟨source, _, _⟩) (f := .keeping) hkey hassigned
    · cases h
  · cases h

/-- A database refuses the variable that the batch declares first. -/
def declaresTwice : Batch → Bool
  | .declare _ columns :: _ => decide ¬Apart (columns.map ColumnDef.name)
  | _ => false

theorem not_carriesOut_of_declaresTwice {batch : Batch} (h : declaresTwice batch = true) (params : Params)
    (change : RowChange) : ¬batch.CarriesOut params change := by
  unfold declaresTwice at h
  split at h
  · exact fun hcarries => of_decide_eq_true h hcarries.apart
  · cases h

/-- What the values are bound to passes the test. -/
def yieldsTest (args : Value) (test : Batch → Params → Bool) (_ : Compiler) (_ : QuerySpec)
    (compiled : Compiled) : Bool :=
  (compiled.bind args).toOption.any fun bound => (compiled.resolved args).toOption.any fun batch =>
    decide (batch.render .empty = .ok bound.sql) && test batch bound.params

theorem yields_of_test {args : Value} {test : Batch → Params → Bool} {P : Batch → Params → Prop}
    (htest : yieldsTest args test c spec compiled = true)
    (h : ∀ batch params, test batch params = true → P batch params) : compiled.Yields args P := by
  obtain ⟨bound, hbind, htest⟩ := exists_ok_of_any htest
  obtain ⟨batch, hresolved, htest⟩ := exists_ok_of_any htest
  obtain ⟨hrender, htest⟩ := Bool.and_eq_true_iff.mp htest
  exact ⟨bound, batch, hbind, hresolved, of_decide_eq_true hrender, h batch _ htest⟩

/-- A ranking is changed, and a list of this ranking alone is refused. -/
theorem updates_differ_ranking :
    ∃ schema spec spec' compiled compiled', Schema.build rankingDeclarations = .ok schema ∧
      (rankingUpdate rankingField).build rankingShapes = .ok spec ∧
      (rankingUpdate rankingsField).build rankingShapes = .ok spec' ∧
      (⟨schema, default, .exact⟩ : Compiler).compile spec = .ok compiled ∧
      (⟨schema, default, .exact⟩ : Compiler).compile spec' = .ok compiled' ∧
      (compiled.Yields (.record [("ranking", ranking)]) fun batch params =>
        batch.CarriesOut params rankingChange) ∧
      compiled'.Yields (.record [("rankings", .list [ranking])]) fun batch params =>
        ¬batch.CarriesOut params rankingChange := by
  obtain ⟨schema, spec, compiled, hschema, hspec, hcompile, htest⟩ :
      ∃ schema spec compiled, Schema.build rankingDeclarations = .ok schema ∧
        (rankingUpdate rankingField).build rankingShapes = .ok spec ∧
        (⟨schema, default, .exact⟩ : Compiler).compile spec = .ok compiled ∧
        yieldsTest (.record [("ranking", ranking)])
          (fun batch params => decide (soleChange? params batch = some rankingChange))
          ⟨schema, default, .exact⟩ spec compiled = true :=
    exists_compiled (by decide +kernel)
  obtain ⟨schema', spec', compiled', hschema', hspec', hcompile', htest'⟩ :
      ∃ schema spec compiled, Schema.build rankingDeclarations = .ok schema ∧
        (rankingUpdate rankingsField).build rankingShapes = .ok spec ∧
        (⟨schema, default, .exact⟩ : Compiler).compile spec = .ok compiled ∧
        yieldsTest (.record [("rankings", .list [ranking])]) (fun batch _ => declaresTwice batch)
          ⟨schema, default, .exact⟩ spec compiled = true :=
    exists_compiled (by decide +kernel)
  obtain rfl : schema = schema' := Except.ok.inj (hschema.symm.trans hschema')
  exact ⟨schema, spec, spec', compiled, compiled', hschema, hspec, hspec', hcompile, hcompile',
    yields_of_test htest fun _ _ h => carriesOut_of_soleChange (of_decide_eq_true h),
    yields_of_test htest' fun _ params h => not_carriesOut_of_declaresTwice h params _⟩

end Compiler

end ShapeSql
