import ShapeSql.Proofs.Bind.Scoped

namespace ShapeSql

open Sql Planning

namespace Sql

/-- The table variable that goes by the name, if this row source is one. -/
def Factor.variableNamed? (aliasName : String) : Factor → Option String
  | .tableVar name given => if sameName (given.getD name) aliasName then some name else none
  | .table _ _ | .derived _ _ => none

/-- The table variables of a FROM clause that go by the name. -/
def Source.variablesNamed (aliasName : String) (s : Source) : List String :=
  s.factors.filterMap (Factor.variableNamed? aliasName)

/-- The assignment is spelled out, and its column is one of these. -/
def Assignment.Among (columns : List String) (a : Assignment) : Prop :=
  ∃ column value, a = .set column value ∧ column ∈ columns

/-- Every column of a table variable that the statement assigns or lists is there. -/
def Statement.Puts (c : Catalog) : Statement → Prop
  | .insert (.tableVar name) columns _ => ∀ column ∈ columns, column ∈ c.tableVars name
  | .update u => ∀ name ∈ u.source.elim [] (Source.variablesNamed u.target),
    ∀ a ∈ u.assignments, a.Among (c.tableVars name)
  | .merge m =>
    (∀ o, m.output = some o → ∀ column ∈ o.columns, column ∈ c.tableVars o.into) ∧
    ∀ name, m.target.variableNamed? m.target.reference = some name →
      (∀ a ∈ m.matchedUpdate, a.Among (c.tableVars name)) ∧
      ∀ i, m.notMatchedInsert = some i → ∀ column ∈ i.columns, column ∈ c.tableVars name
  | .insert (.table _) _ _ | .declare _ _ | .delete _ _ | .query _ => True

/-- Every column that a statement reads through an alias is there, and so is every column of a table
variable that a statement assigns or lists. -/
structure Batch.Provided (batch : Batch) (s : Schema) : Prop where
  reads : batch.WellScoped s
  puts : ∀ st ∈ batch, st.Puts (batch.catalog s)

/-- A variable has the columns that it is declared with. -/
theorem Batch.mem_tableVars {batch : Batch} {s : Schema} {name column : String}
    {columns : List ColumnDef} (hdeclared : .declare name columns ∈ batch)
    (hcolumn : column ∈ columns.map ColumnDef.name) : column ∈ (batch.catalog s).tableVars name := by
  refine List.mem_flatMap.mpr ⟨_, hdeclared, ?_⟩
  show column ∈ if name = name then columns.map ColumnDef.name else []
  rw [if_pos rfl]
  exact hcolumn

section Filled

variable {c : Catalog} {f : HoleFiller} {aliasName : String} {columns : List String}

/-- Filling a batch leaves its declarations as they are. -/
theorem Batch.catalog_filled (batch : Batch) (subs : Substitution) (s : Schema) :
    (batch.filled subs).catalog s = batch.catalog s := by
  rw [catalog, catalog, Catalog.mk.injEq]
  refine ⟨rfl, funext fun name => ?_⟩
  rw [Batch.filled, List.flatMap_map]
  refine congrArg (batch.flatMap ·) (funext fun st => ?_)
  cases st with
  | _ => rfl

theorem Factor.variableNamed?_filled (s : Factor) :
    (s.filled f).variableNamed? aliasName = s.variableNamed? aliasName := by
  cases s with
  | table _ _ | tableVar _ _ => rw [Factor.filled]
  | derived _ _ =>
    rw [Factor.filled]
    rfl

theorem variablesNamed_filled (s : Option Source) :
    (sourceFilled f s).elim [] (Source.variablesNamed aliasName) =
      s.elim [] (Source.variablesNamed aliasName) := by
  cases s with
  | none => rfl
  | some s =>
    obtain ⟨base, joins⟩ := s
    have hnamed : Factor.variableNamed? aliasName ∘ Factor.filled f =
        Factor.variableNamed? aliasName := funext Factor.variableNamed?_filled
    simp only [sourceFilled, Option.elim_some, Source.variablesNamed, Source.factors,
      map_factor_joinsFilled, ← List.map_cons, List.filterMap_map, hnamed]

/-- Spelled out assignments stay so. -/
theorem among_filled {assignments : List Assignment} (h : ∀ a ∈ assignments, a.Among columns) :
    ∀ a ∈ assignmentsFilled f assignments, a.Among columns := by
  induction assignments with
  | nil => exact nofun
  | cons first rest ih =>
    rw [List.forall_mem_cons] at h
    obtain ⟨⟨column, value, rfl, hcolumn⟩, hrest⟩ := h
    rw [assignmentsFilled]
    exact List.forall_mem_cons.mpr ⟨⟨column, _, rfl, hcolumn⟩, ih hrest⟩

theorem Statement.Puts.filled {st : Statement} (h : st.Puts c) : (st.filled f).Puts c := by
  cases st with
  | declare _ _ | delete _ _ | query _ => trivial
  | insert target columns source =>
    cases target with
    | table _ => trivial
    | tableVar name => exact h
  | update u =>
    intro name hname
    rw [Update.filled, variablesNamed_filled] at hname
    exact among_filled (h name hname)
  | merge m =>
    refine ⟨fun o ho => ?_, fun name htarget => ?_⟩
    · obtain ⟨output, houtput, rfl⟩ := Option.map_eq_some_iff.mp ho
      exact h.1 output houtput
    · rw [Merge.filled, Factor.variableNamed?_filled, Factor.reference_filled] at htarget
      obtain ⟨hmatched, hinsert⟩ := h.2 name htarget
      refine ⟨among_filled hmatched, fun i hi => ?_⟩
      obtain ⟨insert, hold, rfl⟩ := Option.map_eq_some_iff.mp hi
      exact hinsert insert hold

end Filled

end Sql

/-- The columns above a link that its keys refer to. -/
def Link.referredAbove : Option Link → List ColumnId
  | some (.childHolds pairs) => pairs.map JoinPair.parent
  | some (.junction _ toParent _) => toParent.map JoinPair.parent
  | some (.parentHolds _) | none => []

/-- The columns below a link that its keys refer to. -/
def Link.referredBelow : Option Link → List ColumnId
  | some (.parentHolds pairs) => pairs.map JoinPair.child
  | some (.junction _ _ toChild) => toChild.map JoinPair.child
  | some (.childHolds _) | none => []

namespace WrittenTable

variable {s : Schema} {c : Catalog} {batch : Batch} {t parent child : WrittenTable} {id : ColumnId}

/-- The column is there in the rows of the table: it is in the key, or one of those written. -/
def Carries (t : WrittenTable) (id : ColumnId) : Prop :=
  id ∈ t.table.primaryKey ∨ ∃ w ∈ t.columns, w.column.id = id

instance (t : WrittenTable) (id : ColumnId) : Decidable (t.Carries id) :=
  inferInstanceAs (Decidable (_ ∨ _))

/-- Whatever column a key between the two tables refers to, the table that has it carries it. -/
structure Referable (parent child : WrittenTable) : Prop where
  above : ∀ id ∈ Link.referredAbove child.link, parent.Carries id
  below : ∀ id ∈ Link.referredBelow child.link, child.Carries id

instance (parent child : WrittenTable) : Decidable (Referable parent child) :=
  decidable_of_iff ((∀ id ∈ Link.referredAbove child.link, parent.Carries id) ∧
    ∀ id ∈ Link.referredBelow child.link, child.Carries id)
    ⟨fun h => ⟨h.1, h.2⟩, fun h => ⟨h.above, h.below⟩⟩

/-- A table whose rows are declared has in them what its statements read. -/
theorem supplied_of_declared (hs : s.Sound) (hkeyed : s.Keyed) (htable : t.table ∈ s.tables)
    (hkey : ∀ column ∈ t.table.keyColumns, ∃ w ∈ t.columns, w.column = column)
    (hdeclared : t.declareLookup ∈ batch) : t.Supplied (batch.catalog s) := by
  have hcolumns : ∀ w ∈ t.columns, w.column.name ∈ (batch.catalog s).tableVars t.lookup := by
    intro w hw
    refine Batch.mem_tableVars hdeclared ?_
    simp only [List.map_cons, List.map_append, List.map_map]
    exact List.mem_cons_of_mem _ (List.mem_append_right _ (List.mem_map_of_mem hw))
  exact {
    index := Batch.mem_tableVars hdeclared List.mem_cons_self
    parent := by
      intro hlink
      refine Batch.mem_tableVars hdeclared ?_
      rw [if_pos hlink]
      exact List.mem_cons_of_mem _ List.mem_cons_self
    columns := hcolumns
    key := by
      intro column hcolumn
      obtain ⟨w, hw, rfl⟩ := hkey column hcolumn
      exact hcolumns w hw
    stored := by
      intro column hcolumn
      rw [show (batch.catalog s).tables = (Catalog.ofSchema s).tables from rfl,
        hkeyed.catalog_knows t.table htable]
      exact List.mem_map_of_mem ((hs.laid t.table htable).mem_of_mem_keyColumns hcolumn) }

theorem captured_of_declared
    (hdeclared : t.table.hasKey = true → t.declareOutput ∈ batch) : t.Captured (batch.catalog s) := by
  intro hkey name hname
  refine Batch.mem_tableVars (hdeclared hkey) ?_
  simp only [List.map_cons, List.map_map]
  exact hname

/-- A column that the table carries is there under its name. -/
theorem Carries.name (hs : s.Sound) (htable : t.table ∈ s.tables) (hcomplete : t.Complete)
    (hsupplied : t.Supplied c) (h : t.Carries id) : s.columnName id ∈ c.tableVars t.lookup := by
  have hhas : t.Has id := h.elim (hcomplete.key id) fun hwritten => hwritten
  obtain ⟨w, hw, rfl⟩ := hhas
  rw [hs.columnName_eq htable (hcomplete.owned.owned w hw)]
  exact hsupplied.columns w hw

/-- A column of a table of the schema is there under its name. -/
theorem name_of_owns (hs : s.Sound) (hc : c.Knows s) {table : Table} (htable : table ∈ s.tables)
    (h : table.Owns id) : s.columnName id ∈ c.tables table.name := by
  obtain ⟨column, hcolumn, _, hname⟩ := hs.columnName_of_owns htable h
  rw [hname, hc table htable]
  exact List.mem_map_of_mem hcolumn

/-- Where keys refer to columns that are carried, both ends of a link have what it joins. -/
theorem linkSupplied_of_referable (hs : s.Sound) (hc : c.Knows s)
    (hparent : parent.table ∈ s.tables ∧ parent.Complete ∧ parent.Supplied c)
    (hchild : child.Sound s ∧ child.Complete ∧ child.Supplied c) (hbelow : Below s parent child)
    (hrefers : Refers parent child) (h : Referable parent child) : LinkSupplied s c parent child := by
  obtain ⟨link, hlink, hbetween⟩ := hbelow.linked
  obtain ⟨hparent, hcomplete, hsupplied⟩ := hparent
  obtain ⟨hchild, hcomplete', hsupplied'⟩ := hchild
  have habove : ∀ id, parent.Carries id → s.columnName id ∈ c.tableVars parent.lookup :=
    fun id hid => hid.name hs hparent hcomplete hsupplied
  have hunder : ∀ id, child.Carries id → s.columnName id ∈ c.tableVars child.lookup :=
    fun id hid => hid.name hs hchild.table hcomplete' hsupplied'
  rw [LinkSupplied, hlink]
  cases link with
  | parentHolds pairs =>
    intro pair hpair
    have hheld := hrefers pair.parent
    have hreferred := h.below pair.child
    rw [hlink] at hheld hreferred
    exact ⟨habove _ (Or.inr (hheld (List.mem_map_of_mem hpair))),
      hunder _ (hreferred (List.mem_map_of_mem hpair))⟩
  | childHolds pairs =>
    intro pair hpair
    have hheld := hcomplete'.own pair.child
    have hreferred := h.above pair.parent
    rw [hlink] at hheld hreferred
    exact ⟨habove _ (hreferred (List.mem_map_of_mem hpair)),
      hunder _ (Or.inr (hheld (List.mem_map_of_mem hpair))),
      name_of_owns hs hc hchild.table (hbetween pair hpair).2⟩
  | junction junction toParent toChild =>
    obtain ⟨⟨table, htable, hid⟩, _, _⟩ := hchild.link _ hlink
    have hjunction : s.table junction ∈ s.tables := by
      rw [← hid, hs.table_id htable]
      exact htable
    refine ⟨fun pair hpair => ⟨?_, ?_⟩, fun pair hpair => ⟨?_, ?_⟩⟩
    · have hreferred := h.above pair.parent
      rw [hlink] at hreferred
      exact habove _ (hreferred (List.mem_map_of_mem hpair))
    · exact name_of_owns hs hc hjunction (hbetween.1 pair hpair).2
    · exact name_of_owns hs hc hjunction (hbetween.2 pair hpair).1
    · have hreferred := h.below pair.child
      rw [hlink] at hreferred
      exact hunder _ (hreferred (List.mem_map_of_mem hpair))

section Puts

/-- Beside another variable, the rows of a table go by their own name. -/
theorem variablesNamed_rows {rows other aliasName : String} {on : Expr}
    (hother : sameName aliasName "l" = false) :
    Source.variablesNamed "l" ((Source.of (.tableVar rows (some "l"))).join .inner
      (.tableVar other (some aliasName)) on) = [rows] := by
  simp [Source.variablesNamed, Factor.variableNamed?, sameName_self, hother]

theorem puts_fillLookup {entity : Path} {st : Statement} {d d' : Draft} (h : t.Supplied c)
    (hrun : (Planner.fillLookup t entity).run d = .ok (st, d')) : st.Puts c := by
  obtain ⟨base, _, _, hole, _, rfl⟩ := Planner.fillLookup_inv hrun
  refine List.forall_mem_cons.mpr ⟨h.index, List.forall_mem_append.mpr ⟨?_, ?_⟩⟩
  · intro column hcolumn
    split at hcolumn
    · rw [List.mem_singleton.mp hcolumn]
      exact h.parent ‹_›
    · cases hcolumn
  · exact List.forall_mem_map.mpr h.columns

theorem puts_writeBack (h : t.Supplied c) : t.writeBack.Puts c := by
  intro name hname a ha
  rw [Option.elim_some, variablesNamed_rows (by decide), List.mem_singleton] at hname
  obtain ⟨column, hcolumn, rfl⟩ := List.mem_map.mp ha
  exact ⟨column.name, _, rfl, hname ▸ h.key column hcolumn⟩

theorem puts_copyKeys {other : WrittenTable} {copied : List (ColumnId × ColumnId)}
    {own others : String} (h : ∀ pair ∈ copied, s.columnName pair.1 ∈ c.tableVars t.lookup) :
    (t.copyKeys s other copied own others).Puts c := by
  intro name hname a ha
  rw [Option.elim_some, variablesNamed_rows (by decide), List.mem_singleton] at hname
  obtain ⟨pair, hpair, rfl⟩ := List.mem_map.mp ha
  exact ⟨_, _, rfl, hname ▸ h pair hpair⟩

theorem puts_updateRows {st : Statement} (h : t.updateRows = some st) : st.Puts c := by
  obtain ⟨_, rfl⟩ := updateRows_inv h
  intro name hname
  have hother : sameName "source" "target" = false := by decide
  simp [Source.variablesNamed, Factor.variableNamed?, hother] at hname

theorem puts_mergeRows (upsert : Bool) (h : t.Captured c) : (t.mergeRows upsert).Puts c := by
  refine ⟨fun o ho => ?_, fun name htarget => nomatch htarget⟩
  simp only at ho
  split at ho
  · cases ho
  · cases ho
    exact h (Table.hasKey_of_keyColumns ‹_›)

end Puts

end WrittenTable

namespace Planner

variable {p : Planner} {c : Catalog} {tree : WrittenTree} {d d' : Draft} {batch : Batch}

theorem puts_copiedKeys {v : Tree.Visit WrittenTable} {st : Statement} (h : p.SuppliedAround c v)
    (hst : st ∈ p.copiedKeys v) : st.Puts c := by
  rcases p.copiedKeys_cases hst with
    ⟨parent, pairs, hparent, hlink, rfl⟩ | ⟨child, pairs, hchild, hlink, rfl⟩
  · have hlinks := h.links.above parent hparent
    rw [WrittenTable.LinkSupplied, hlink] at hlinks
    exact WrittenTable.puts_copyKeys
      (List.forall_mem_map.mpr fun pair hpair => (hlinks pair hpair).2.1)
  · have hlinks := h.links.below child hchild
    rw [WrittenTable.LinkSupplied, hlink] at hlinks
    exact WrittenTable.puts_copyKeys
      (List.forall_mem_map.mpr fun pair hpair => (hlinks pair hpair).1)

theorem puts_writeTable {upsert : Bool} {v : Tree.Visit WrittenTable} {st : Statement}
    (h : p.SuppliedAround c v) (hst : st ∈ p.writeTable upsert v) : st.Puts c := by
  rcases p.writeTable_cases hst with hcopied | rfl | ⟨_, rfl⟩ | hupdate | ⟨_, _, _, _, _, _, rfl⟩
  · exact puts_copiedKeys h hcopied
  · exact WrittenTable.puts_mergeRows upsert h.captured
  · exact WrittenTable.puts_writeBack h.all.label
  · exact WrittenTable.puts_updateRows hupdate
  · trivial

theorem puts_removeStale {v : Tree.Visit WrittenTable} {st : Statement} (hst : st ∈ p.removeStale v) :
    st.Puts c := by
  obtain ⟨_, _, rfl⟩ := p.delete_of_removeStale hst
  trivial

/-- What a write puts into its variables is there, where the catalog supplies what it reads. -/
theorem write_puts {relations : Option Relations}
    (hrun : p.write.run d = .ok ((batch, relations), d'))
    (hsupplied : ∀ entity tree, p.entity = .ok entity → p.writtenTree entity = .ok tree →
      (∀ st ∈ declarations tree, st ∈ batch) → p.SuppliedTree c tree) :
    ∀ st ∈ batch, st.Puts c := by
  obtain ⟨entity, tree, hentity, htree, hplain | ⟨filled, hfilled, hdeclared, hbatch⟩⟩ :=
    p.write_cases hrun
  · obtain ⟨names, _, _, hole, _, rfl⟩ := plainInsert_inv hplain
    intro st hst
    rw [List.mem_singleton.mp hst]
    trivial
  · have htables := hsupplied entity tree hentity htree hdeclared
    intro st hst
    rcases hbatch st hst with hmem | hwritten
    · have heach : List.Forall₂ (fun t st => t.Supplied c → st.Puts c) tree.preorder filled :=
        forall₂_of_run_mapM_ok (fun t st d d' hrun hsupplied =>
          WrittenTable.puts_fillLookup hsupplied hrun) hfilled
      obtain ⟨t, ht, hputs⟩ := mem_left_of_forall₂ heach hmem
      exact hputs (htables.tables t ht).1
    · cases hwritten with
      | lookup _ | output _ | returned _ _ => trivial
      | table hv hst =>
        exact puts_writeTable (htables.around ((writeOrder_perm tree []).subset hv)) hst
      | stale _ hst => exact puts_removeStale hst

theorem updateByEntity_puts (hrun : p.updateByEntity.run d = .ok (batch, d'))
    (hsupplied : ∀ entity tree, p.entity = .ok entity → p.writtenTree entity = .ok tree →
      (updatedTable tree.label).declareLookup ∈ batch → (updatedTable tree.label).Supplied c) :
    ∀ st ∈ batch, st.Puts c := by
  obtain ⟨entity, tree, hentity, htree, _, ⟨fill, update, _, hfill, hupdate, rfl⟩ |
    ⟨assignments, filters, _, _, _, rfl⟩⟩ := p.updateByEntity_cases hrun
  · intro st hst
    simp only [List.mem_cons, List.not_mem_nil, or_false] at hst
    rcases hst with rfl | rfl | rfl
    · trivial
    · exact WrittenTable.puts_fillLookup (hsupplied entity tree hentity htree List.mem_cons_self) hfill
    · exact WrittenTable.puts_updateRows hupdate
  · intro st hst
    rw [updateTarget, List.mem_singleton] at hst
    rw [hst]
    exact List.forall_mem_nil _

/-- A tree of tables whose variables are declared, and whose keys refer to columns that are carried, is
supplied. -/
theorem suppliedTree_of_declared (hs : p.schema.Sound) (hkeyed : p.schema.Keyed)
    (htable : p.table ∈ p.schema.tables) {entity : FieldTree} (htree : p.writtenTree entity = .ok tree)
    (hdeclared : ∀ st ∈ declarations tree, st ∈ batch) (h : tree.Edges WrittenTable.Referable) :
    p.SuppliedTree (batch.catalog p.schema) tree := by
  have hlaid := writtenTree_laid hs hkeyed htable htree
  have hsound := writtenTree_sound hs htable htree
  have htables : ∀ t ∈ tree.preorder,
      t.Supplied (batch.catalog p.schema) ∧ t.Captured (batch.catalog p.schema) := by
    intro t ht
    refine ⟨?_, ?_⟩
    · refine WrittenTable.supplied_of_declared hs hkeyed (hsound t ht).table
        (WrittenTable.key_written hs (hsound t ht).table (hlaid.complete t ht)) ?_
      exact hdeclared _ (List.mem_flatMap.mpr ⟨t, ht, List.mem_cons_self⟩)
    · refine WrittenTable.captured_of_declared fun hkey => ?_
      refine hdeclared _ (List.mem_flatMap.mpr ⟨t, ht, ?_⟩)
      rw [if_pos hkey]
      exact List.mem_cons_of_mem _ List.mem_cons_self
  refine ⟨htables, ?_⟩
  refine Tree.Edges.mono tree (fun parent child hparent hchild hedge => ?_) (hlaid.edges.and h)
  exact WrittenTable.linkSupplied_of_referable hs hkeyed.catalog_knows
    ⟨(hsound parent hparent).table, hlaid.complete parent hparent, (htables parent hparent).1⟩
    ⟨hsound child hchild, hlaid.complete child hchild, (htables child hchild).1⟩
    hedge.1.1 hedge.1.2 hedge.2

/-- Declared variables have what is read of them, if keys refer to columns that are carried. -/
theorem provides_of_declared (hs : p.schema.Sound) (hkeyed : p.schema.Keyed)
    (htable : p.table ∈ p.schema.tables)
    (hreferable : p.operation ≠ .update → ∀ entity tree, p.entity = .ok entity →
      p.writtenTree entity = .ok tree → tree.Edges WrittenTable.Referable) :
    p.Provides (batch.catalog p.schema) batch := by
  intro entity tree hentity htree
  refine ⟨fun hdeclared hnot => suppliedTree_of_declared hs hkeyed htable htree hdeclared
    (hreferable hnot entity tree hentity htree), fun hdeclared => ?_⟩
  have hlaid := writtenTree_laid hs hkeyed htable htree
  have hroot : tree.label.table ∈ p.schema.tables := hlaid.table ▸ htable
  have hcomplete := hlaid.complete _ (Tree.label_mem_preorder tree)
  refine WrittenTable.supplied_of_declared hs hkeyed hroot (fun column hcolumn => ?_) hdeclared
  obtain ⟨w, hw, rfl⟩ := WrittenTable.key_written hs hroot hcomplete column hcolumn
  have hkey : w.column.primaryKey = true := by
    rw [show (updatedTable tree.label).table = tree.label.table from rfl,
      (hs.laid _ hroot).keyColumns_eq] at hcolumn
    exact List.of_mem_filter hcolumn
  refine ⟨w, List.mem_filter.mpr ⟨hw, ?_⟩, rfl⟩
  rw [hkey, Bool.or_true]

theorem entities_put {relations : Option Relations}
    (hrun : (Plan.statements p).run default = .ok ((batch, relations), d')) (h : ¬p.ByFilter)
    (hprovides : p.Provides c batch) : ∀ st ∈ batch, st.Puts c := by
  rcases statements_cases hrun h with ⟨hnot, hwrite⟩ | hupdate
  · exact write_puts hwrite fun entity tree hentity htree hdeclared =>
      (hprovides entity tree hentity htree).1 hdeclared hnot
  · exact updateByEntity_puts hupdate fun entity tree hentity htree =>
      (hprovides entity tree hentity htree).2

end Planner

namespace Compiler

/-- The batch of an insert, an upsert, a sync or an update by entities reads, assigns and lists columns
that are there, before and after binding, if every column that a key between the written tables refers
to is carried, and no relation of the result is named like the variable that rows are returned by. -/
theorem compile_provided {declarations : List TableDeclaration} {schema : Schema}
    {setup : CompilerSetup} {c : Compiler} {spec : QuerySpec} {compiled : Compiled}
    (hschema : Schema.build declarations = .ok schema) (hsetup : setup.schema = some schema)
    (hbuild : setup.build = .ok c) (hcompile : c.compile spec = .ok compiled) {arguments : Arguments}
    (harguments : Arguments.classify spec.operation spec.arguments.children = .ok arguments)
    (hwrites : spec.operation = .insert ∨ spec.operation = .upsert ∨ spec.operation = .sync ∨
      spec.operation = .update ∧ arguments.set = [])
    (hreferable : spec.operation ≠ .update → ∀ p entity tree,
      Plan.PlannedBy c.resolver c.options.keyWindowAlias spec p → p.entity = .ok entity →
        p.writtenTree entity = .ok tree → tree.Edges WrittenTable.Referable)
    (hlookup : ∀ found, compiled.plan.relations = some found →
      ∀ r ∈ found.all, sameName "__lookup" r.aliasName = false) :
    compiled.plan.batch.Provided compiled.schema ∧
      ∀ args bound, compiled.bind args = .ok bound →
        ∃ batch, compiled.resolved args = .ok batch ∧ batch.render .empty = .ok bound.sql ∧
          batch.Provided compiled.schema := by
  obtain ⟨p, d, hp, hrun, hrules, _, htables, hs, hkeyed, htable⟩ :=
    planner_of_compile hschema hsetup hbuild hcompile
  have hby : ¬p.ByFilter := by
    have hclassify := hp.arguments
    rw [harguments] at hclassify
    cases hclassify
    rw [Planner.ByFilter, hp.operation]
    rcases hwrites with h | h | h | ⟨h, hset⟩
    · simp [h]
    · simp [h]
    · simp [h]
    · simp [h, hset]
  have hprovides : p.Provides (compiled.plan.batch.catalog p.schema) compiled.plan.batch :=
    Planner.provides_of_declared hs hkeyed htable fun hnot entity tree hentity htree =>
      hreferable (hp.operation ▸ hnot) p entity tree hp hentity htree
  have hputs := Planner.entities_put hrun hby hprovides
  have hknows : (compiled.plan.batch.catalog p.schema).Knows p.schema := hkeyed.catalog_knows
  have hsettled : ∀ st ∈ compiled.plan.batch,
      ∀ site ∈ st.collect (.sites (compiled.plan.batch.catalog p.schema)) [],
      site.Settled p.schema (compiled.plan.batch.catalog p.schema) True False d.rules d.rules.length :=
    Planner.entities_settle hs hkeyed hknows htable hrun hby (fun _ => hprovides) fun _ => hlookup
  rw [htables] at hputs hsettled
  rw [← hrules] at hsettled
  refine ⟨⟨fun scopes aliasName name hsite => ?_, hputs⟩, fun args bound hbind => ?_⟩
  · obtain ⟨st, hst, hsite⟩ := List.mem_flatMap.mp hsite
    exact Site.settled_column.mp (hsettled st hst _ hsite) trivial
  · obtain ⟨subs, params, batch, hsubs, hresolved, rfl, hrender⟩ := Compiled.resolved_of_bind hbind
    have hasked := Plan.asked_filled (Plan.ofSpec_sound (ofSpec_of_compile hcompile).2) hsubs hsettled
    refine ⟨_, hresolved, hrender, fun scopes aliasName name hsite => ?_, fun st hst => ?_⟩
    · rw [Batch.sites, Batch.catalog_filled] at hsite
      obtain ⟨st, hst, hsite⟩ := List.mem_flatMap.mp hsite
      exact hasked st hst _ hsite trivial
    · rw [Batch.catalog_filled]
      obtain ⟨before, hbefore, rfl⟩ := List.mem_map.mp hst
      exact (hputs before hbefore).filled

/-- People, and pets that belong to them by a code that is no key. -/
def codeDeclarations : List TableDeclaration := [
  ⟨"Person", .table, [⟨"Id", .integer 4, false, true, false⟩,
    ⟨"Code", .integer 4, false, false, false⟩], []⟩,
  ⟨"Pet", .table, [⟨"Id", .integer 4, false, true, false⟩,
    ⟨"OwnerCode", .integer 4, false, false, false⟩], [⟨["OwnerCode"], "Person", ["Code"]⟩]⟩]

/-- People with their code, and without. -/
def codeShapes : Shapes := .ofList [
  ⟨"Coded", some "Person", [⟨"Id", .i32, false, default⟩, ⟨"Code", .i32, false, default⟩,
    ⟨"Pets", .list (.shape "Pet"), false, default⟩]⟩,
  ⟨"Person", none, [⟨"Id", .i32, false, default⟩, ⟨"Pets", .list (.shape "Pet"), false, default⟩]⟩,
  ⟨"Pet", none, [⟨"Id", .i32, false, default⟩]⟩]

/-- People with their code are kept in step, and selected back. -/
def codedSync : SpecDeclaration where
  operation := .sync
  table := some "Person"
  arguments := [⟨"people", .list (.shape "Coded"), false, default⟩]
  returns := [.many "Coded"]

def codedArguments : Value := .record [("people", .list [
  .record [("Id", .i32 1), ("Code", .i32 7), ("Pets", .list [.record [("Id", .i32 2)]])]])]

/-- The sync is bound, its keys refer to columns that are carried, and no relation is named like the
variable that rows are returned by. -/
def codedTest (c : Compiler) (spec : QuerySpec) (compiled : Compiled) : Bool :=
  spec.operation == .sync &&
  ((compiled.bind codedArguments).toOption.any fun _ => true) &&
  ((Arguments.classify spec.operation spec.arguments.children).toOption.any fun arguments =>
    (Plan.targetTable c.resolver spec).toOption.any fun target =>
      let p : Planner := ⟨c.resolver, c.options.keyWindowAlias, target, spec.operation, spec.output,
        spec.outputKind, arguments⟩
      p.entity.toOption.all fun entity => (p.writtenTree entity).toOption.all fun tree =>
        decide (tree.Edges WrittenTable.Referable)) &&
  compiled.plan.relations.all fun found => found.all.all fun r => !sameName "__lookup" r.aliasName

/-- The people are written with columns that are there, although the pets refer to no key of theirs. -/
theorem compile_provided_coded :
    ∃ schema spec compiled, Schema.build codeDeclarations = .ok schema ∧
      codedSync.build codeShapes = .ok spec ∧
      (⟨schema, default, .exact⟩ : Compiler).compile spec = .ok compiled ∧
      compiled.plan.batch.Provided compiled.schema ∧
      ∃ bound batch, compiled.bind codedArguments = .ok bound ∧
        compiled.resolved codedArguments = .ok batch ∧ batch.render .empty = .ok bound.sql ∧
        batch.Provided compiled.schema := by
  obtain ⟨schema, spec, compiled, hschema, hspec, hcompile, htest⟩ :
      ∃ schema spec compiled, Schema.build codeDeclarations = .ok schema ∧
        codedSync.build codeShapes = .ok spec ∧
        (⟨schema, default, .exact⟩ : Compiler).compile spec = .ok compiled ∧
        codedTest ⟨schema, default, .exact⟩ spec compiled = true :=
    exists_compiled (by decide +kernel)
  simp only [codedTest, Bool.and_eq_true, beq_iff_eq] at htest
  obtain ⟨⟨⟨hsync, hbinds⟩, htrees⟩, hrelations⟩ := htest
  obtain ⟨bound, hbind, _⟩ := exists_ok_of_any hbinds
  obtain ⟨arguments, harguments, htrees⟩ := exists_ok_of_any htrees
  obtain ⟨target, htarget, htrees⟩ := exists_ok_of_any htrees
  simp only [Option.all_eq_true, List.all_eq_true, Bool.not_eq_true'] at hrelations htrees
  have hbuild : (CompilerSetup.mk (some schema) default (some .exact)).build =
      .ok ⟨schema, default, .exact⟩ := rfl
  have hprovided := compile_provided hschema rfl hbuild hcompile harguments
    (.inr (.inr (.inl hsync)))
    (fun _ p entity tree hp hentity htree => by
      obtain rfl := hp.eq htarget harguments
      have hfound := htrees entity (by rw [hentity]; rfl) tree (by rw [htree]; rfl)
      exact of_decide_eq_true hfound)
    hrelations
  obtain ⟨batch, hresolved, hrender, hbatch⟩ := hprovided.2 codedArguments bound hbind
  exact ⟨schema, spec, compiled, hschema, hspec, hcompile, hprovided.1, bound, batch, hbind, hresolved,
    hrender, hbatch⟩

/-- A person without a code, with a pet. -/
def uncodedInsert : SpecDeclaration where
  operation := .insert
  table := some "Person"
  arguments := [⟨"person", .shape "Person", false, default⟩]
  returns := []

def uncodedArguments : Value :=
  .record [("person", .record [("Id", .i32 1), ("Pets", .list [.record [("Id", .i32 2)]])])]

/-- The rows of the pets, and those of the people that the code is copied from. -/
def uncodedScopes : Scopes :=
  [[⟨"l", ["__index", "__parent", "Id", "OwnerCode"]⟩, ⟨"o", ["__index", "Id"]⟩]]

/-- The insert is bound, and reads the code in these scopes, before and after. -/
def uncodedTest (_ : Compiler) (_ : QuerySpec) (compiled : Compiled) : Bool :=
  ((compiled.bind uncodedArguments).toOption.any fun _ => true) &&
  decide (.column uncodedScopes "o" "Code" ∈ compiled.plan.batch.sites compiled.schema) &&
  (compiled.resolved uncodedArguments).toOption.any fun batch =>
    decide (.column uncodedScopes "o" "Code" ∈ batch.sites compiled.schema)

/-- The code of the pet's owner is read from rows that are declared without it. -/
theorem unprovided_uncoded :
    ∃ schema spec compiled bound batch, Schema.build codeDeclarations = .ok schema ∧
      uncodedInsert.build codeShapes = .ok spec ∧
      (⟨schema, default, .exact⟩ : Compiler).compile spec = .ok compiled ∧
      compiled.bind uncodedArguments = .ok bound ∧
      compiled.resolved uncodedArguments = .ok batch ∧
      ¬compiled.plan.batch.Provided compiled.schema ∧ ¬batch.Provided compiled.schema := by
  obtain ⟨schema, spec, compiled, hschema, hspec, hcompile, htest⟩ :
      ∃ schema spec compiled, Schema.build codeDeclarations = .ok schema ∧
        uncodedInsert.build codeShapes = .ok spec ∧
        (⟨schema, default, .exact⟩ : Compiler).compile spec = .ok compiled ∧
        uncodedTest ⟨schema, default, .exact⟩ spec compiled = true :=
    exists_compiled (by decide +kernel)
  simp only [uncodedTest, Bool.and_eq_true, decide_eq_true_eq] at htest
  obtain ⟨⟨hbinds, hplanned⟩, hresolves⟩ := htest
  obtain ⟨bound, hbind, _⟩ := exists_ok_of_any hbinds
  obtain ⟨batch, hresolved, hsite⟩ := exists_ok_of_any hresolves
  have hmissing : ¬uncodedScopes.Resolve "o" "Code" := by
    intro hread
    rw [uncodedScopes, Scopes.Resolve, if_pos (by decide +kernel)] at hread
    exact absurd (hread _ (List.mem_cons_of_mem _ List.mem_cons_self) (sameName_self _)) (by decide)
  exact ⟨schema, spec, compiled, bound, batch, hschema, hspec, hcompile, hbind, hresolved,
    fun h => hmissing (h.reads _ _ _ hplanned),
    fun h => hmissing (h.reads _ _ _ (of_decide_eq_true hsite))⟩

end Compiler

end ShapeSql
