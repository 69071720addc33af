import ShapeSql.Proofs.Plan.WrittenOnce
import ShapeSql.Proofs.Schema.WellFormed
import ShapeSql.Proofs.Sql.TableWrites

namespace ShapeSql

open Sql Planning

namespace Schema

/-- The column at this position is an identity column. -/
def identity (s : Schema) (id : ColumnId) : Bool := (s.column? id).any Column.autoIncrement

/-- The table has an identity column of this name, up to case. -/
def identityNamed (s : Schema) (table column : String) : Bool :=
  (s.tables.find? fun t => t.name == table).any fun t =>
    t.columns.any fun c => sameName c.name column && c.autoIncrement

variable {s : Schema} {table : Table}

theorem identityNamed_eq (hkeyed : s.Keyed) (hnamed : s.NamedApart) (htable : table ∈ s.tables)
    {column : Column} (hcolumn : column ∈ table.columns) :
    s.identityNamed table.name column.name = column.autoIncrement := by
  rw [identityNamed, hkeyed.find_name htable, Option.any_some, Bool.eq_iff_iff, List.any_eq_true]
  constructor
  · rintro ⟨other, hother, h⟩
    rw [Bool.and_eq_true, sameName, beq_iff_eq] at h
    rw [← List.inj_on_of_nodup_map (hnamed table htable) hother hcolumn h.1]
    exact h.2
  · intro hidentity
    exact ⟨column, hcolumn, by rw [sameName_self, hidentity, Bool.and_self]⟩

theorem identityNamed_columnName (hs : s.Sound) (hkeyed : s.Keyed) (hnamed : s.NamedApart)
    (htable : table ∈ s.tables) {id : ColumnId} (hid : table.Owns id) :
    s.identityNamed table.name (s.columnName id) = s.identity id := by
  obtain ⟨column, hcolumn, rfl, hname⟩ := hs.columnName_of_owns htable hid
  obtain ⟨i, hi⟩ := List.mem_iff_getElem?.mp hcolumn
  rw [hname, identityNamed_eq hkeyed hnamed htable hcolumn, identity, hs.column?_id htable hi,
    Option.any_some]

end Schema

namespace Sql

/-- No column of a table that the statement puts something into is an identity column. -/
def Statement.SparesIdentity (s : Schema) (st : Statement) : Prop :=
  ∀ written ∈ st.tableWrites, ∀ column ∈ written.2, s.identityNamed written.1 column = false

instance (s : Schema) (st : Statement) : Decidable (st.SparesIdentity s) :=
  inferInstanceAs (Decidable (∀ written ∈ st.tableWrites, ∀ column ∈ written.2,
    s.identityNamed written.1 column = false))

theorem Statement.sparesIdentity_of_eq_nil {s : Schema} {st : Statement} (h : st.tableWrites = []) :
    st.SparesIdentity s := by
  rw [SparesIdentity, h]
  exact List.forall_mem_nil _

/-- What puts something into columns of one table spares its identity columns exactly if none of them
is one. -/
theorem Statement.sparesIdentity_iff {s : Schema} (hkeyed : s.Keyed) (hnamed : s.NamedApart)
    {table : Table} (htable : table ∈ s.tables) {columns : List Column}
    (howned : ∀ column ∈ columns, column ∈ table.columns) {st : Statement}
    (hwrites : st.tableWrites = [(table.name, columns.map Column.name)]) :
    st.SparesIdentity s ↔ ∀ column ∈ columns, column.autoIncrement = false := by
  rw [SparesIdentity, hwrites, List.forall_mem_singleton, List.forall_mem_map]
  exact forall₂_congr fun column hcolumn => by
    rw [Schema.identityNamed_eq hkeyed hnamed htable (howned column hcolumn)]

end Sql

/-- The columns of a junction that its rows are put into. -/
def Link.pairedColumns : Option Link → List ColumnId
  | some (.junction table toParent toChild) =>
    filledColumns (some (.junction table toParent toChild))
  | _ => []

namespace WrittenTable

variable {s : Schema} {t : WrittenTable}

/-- Both keys of a junction are columns of the junction. -/
theorem pairedColumns_owned (hs : s.Sound) {parent child : WrittenTable}
    (hbelow : Below s parent child) (hchild : child.Sound s) {junction : TableId}
    {toParent toChild : List JoinPair}
    (hlink : child.link = some (.junction junction toParent toChild)) :
    s.table junction ∈ s.tables ∧
      ∀ id ∈ Link.pairedColumns child.link, (s.table junction).Owns id := by
  obtain ⟨link, hlinked, hbetween⟩ := hbelow.linked
  obtain rfl : link = .junction junction toParent toChild := by
    rw [hlink] at hlinked
    exact (Option.some.inj hlinked).symm
  obtain ⟨⟨table, htable, rfl⟩, _, _⟩ := hchild.link _ hlink
  rw [Link.Between, hs.table_id htable] at hbetween
  rw [hs.table_id htable, hlink]
  exact ⟨htable, List.forall_mem_append.mpr
    ⟨List.forall_mem_map.mpr fun pair hpair => (hbetween.1 pair hpair).2,
      List.forall_mem_map.mpr fun pair hpair => (hbetween.2 pair hpair).1⟩⟩

theorem tableWrites_fillLookup {entity : Path} {st : Statement} {d d' : Draft}
    (hrun : (Planner.fillLookup t entity).run d = .ok (st, d')) : st.tableWrites = [] := by
  obtain ⟨base, _, _, hole, _, rfl⟩ := Planner.fillLookup_inv hrun
  rfl

theorem tableWrites_writeBack (t : WrittenTable) : t.writeBack.tableWrites = [] := by
  rw [writeBack]
  exact (Statement.tableWrites_update rfl rfl).trans rfl

theorem tableWrites_copyKeys (t other : WrittenTable) (copied : List (ColumnId × ColumnId))
    (own others : String) : (t.copyKeys s other copied own others).tableWrites = [] := by
  rw [copyKeys]
  exact (Statement.tableWrites_update rfl rfl).trans rfl

theorem tableWrites_updateRows {st : Statement} (h : t.updateRows = some st) :
    st.tableWrites = [(t.table.name, t.updateColumns.map Column.name)] := by
  obtain ⟨_, rfl⟩ := updateRows_inv h
  refine (Statement.tableWrites_update rfl rfl).trans ?_
  exact congrArg (fun columns => [(t.table.name, columns)])
    (columns_map_set t.updateColumns Column.name _)

/-- The rows that a merge inserts have no identity columns. -/
theorem mergeRows_sparesIdentity (hkeyed : s.Keyed) (hnamed : s.NamedApart)
    (htable : t.table ∈ s.tables) (howned : t.Owned) (upsert : Bool) :
    (t.mergeRows upsert).SparesIdentity s := by
  refine List.forall_mem_cons.mpr ⟨List.forall_mem_nil _, List.forall_mem_singleton.mpr ?_⟩
  refine List.forall_mem_map.mpr fun column hcolumn => ?_
  obtain ⟨hwritten, hplain⟩ := List.mem_filter.mp hcolumn
  obtain ⟨w, hw, rfl⟩ := List.mem_map.mp hwritten
  rw [Bool.not_eq_true'] at hplain
  exact (Schema.identityNamed_eq hkeyed hnamed htable (howned.owned w hw)).trans hplain

theorem updateRows_sparesIdentity (hkeyed : s.Keyed) (hnamed : s.NamedApart)
    (htable : t.table ∈ s.tables) (howned : t.Owned) {st : Statement} (h : t.updateRows = some st) :
    st.SparesIdentity s := by
  have hassigned : ∀ column ∈ t.updateColumns,
      column ∈ t.table.columns ∧ column.autoIncrement = false := by
    intro column hcolumn
    obtain ⟨hwritten, hplain⟩ := List.mem_filter.mp hcolumn
    obtain ⟨w, hw, rfl⟩ := List.mem_map.mp hwritten
    rw [Bool.and_eq_true, Bool.not_eq_true', Bool.not_eq_true'] at hplain
    exact ⟨howned.owned w hw, hplain.2⟩
  exact (Statement.sparesIdentity_iff hkeyed hnamed htable (fun column hcolumn =>
    (hassigned column hcolumn).1) (tableWrites_updateRows h)).mpr
      fun column hcolumn => (hassigned column hcolumn).2

end WrittenTable

namespace Planner

variable {p : Planner} {tree : WrittenTree} {d d' : Draft}

theorem tableWrites_copiedKeys {v : Tree.Visit WrittenTable} {st : Statement}
    (hst : st ∈ p.copiedKeys v) : st.tableWrites = [] := by
  obtain ⟨_, _, _, _, rfl⟩ := p.copyKeys_of_copiedKeys hst
  exact WrittenTable.tableWrites_copyKeys _ _ _ _ _

theorem tableWrites_removeStale {v : Tree.Visit WrittenTable} {st : Statement}
    (hst : st ∈ p.removeStale v) : st.tableWrites = [] := by
  obtain ⟨_, _, rfl⟩ := p.delete_of_removeStale hst
  rfl

theorem tableWrites_insertJunction (t parent : WrittenTable) (junction : Table) (id : TableId)
    (toParent toChild : List JoinPair) (upsert : Bool) :
    (p.insertJunction t parent junction toParent toChild upsert).tableWrites =
      [(junction.name,
        (Link.pairedColumns (some (.junction id toParent toChild))).map p.schema.columnName)] := by
  rw [insertJunction, Statement.tableWrites, Link.pairedColumns, Link.filledColumns, List.map_append,
    List.map_map, List.map_map]
  rfl

namespace Founded

variable (h : p.Founded tree) (hkeyed : p.schema.Keyed)

include h hkeyed

/-- The rows of a junction spare its identity columns exactly if no key of it has one. -/
theorem insertJunction_sparesIdentity_iff {v : Tree.Visit WrittenTable} (hv : v ∈ tree.visits)
    {parent : WrittenTable} (hparent : v.parent? = some parent) {junction : TableId}
    {toParent toChild : List JoinPair}
    (hlink : v.label.link = some (.junction junction toParent toChild)) (upsert : Bool) :
    (p.insertJunction v.label parent (p.schema.table junction) toParent toChild upsert).SparesIdentity
        p.schema ↔
      ∀ id ∈ Link.pairedColumns v.label.link, p.schema.identity id = false := by
  obtain ⟨htable, howned⟩ := WrittenTable.pairedColumns_owned h.sound
    ((h.below hv).above _ hparent) (h.tables _ (Tree.label_mem_of_visitsBelow tree hv)) hlink
  rw [Statement.SparesIdentity, tableWrites_insertJunction _ _ _ junction, ← hlink,
    List.forall_mem_singleton, List.forall_mem_map]
  exact forall₂_congr fun id hid => by
    rw [Schema.identityNamed_columnName h.sound hkeyed h.named htable (howned id hid)]

/-- What writes a table spares identity columns, if the junction to it does. -/
theorem writeTable_sparesIdentity {v : Tree.Visit WrittenTable} (hv : v ∈ tree.visits)
    (hpaired : ∀ id ∈ Link.pairedColumns v.label.link, p.schema.identity id = false) {upsert : Bool}
    {st : Statement} (hst : st ∈ p.writeTable upsert v) : st.SparesIdentity p.schema := by
  have hmem : v.label ∈ tree.preorder := Tree.label_mem_of_visitsBelow tree hv
  have htable := (h.tables _ hmem).table
  have howned := (h.complete _ hmem).owned
  rcases p.writeTable_cases hst with
    hcopied | rfl | ⟨_, rfl⟩ | hupdate | ⟨parent, junction, toParent, toChild, hparent, hlink, rfl⟩
  · exact Statement.sparesIdentity_of_eq_nil (tableWrites_copiedKeys hcopied)
  · exact WrittenTable.mergeRows_sparesIdentity hkeyed h.named htable howned upsert
  · exact Statement.sparesIdentity_of_eq_nil (WrittenTable.tableWrites_writeBack _)
  · exact WrittenTable.updateRows_sparesIdentity hkeyed h.named htable howned hupdate
  · exact (h.insertJunction_sparesIdentity_iff hkeyed hv hparent hlink upsert).mpr hpaired

/-- A write spares identity columns exactly if no junction has one in its keys. -/
theorem sparesIdentity_iff {filled returned : Batch} {relations : Option Relations} {entity : Path}
    (hfilled : (tree.preorder.mapM fun t => fillLookup t entity).run d = .ok (filled, d'))
    (hreturned : p.Returned returned relations) :
    (∀ st ∈ declarations tree ++ filled ++ p.writes tree ++ p.removals tree ++ returned,
      st.SparesIdentity p.schema) ↔
        ∀ t ∈ tree.preorder, ∀ id ∈ Link.pairedColumns t.link, p.schema.identity id = false := by
  constructor
  · intro hall t ht
    simp only [List.forall_mem_append] at hall
    obtain ⟨⟨⟨_, hwritten⟩, _⟩, _⟩ := hall
    cases hlink : t.link with
    | none => exact List.forall_mem_nil _
    | some link =>
      cases link with
      | parentHolds _ | childHolds _ => exact List.forall_mem_nil _
      | junction junction toParent toChild =>
        obtain ⟨v, hv, w, _, rfl, hparent, _⟩ := h.visit_of_linked ht hlink
        rw [← hlink]
        exact (h.insertJunction_sparesIdentity_iff hkeyed hv hparent hlink _).mp
          (hwritten _ (mem_writes hv (insertJunction_mem hparent hlink)))
  · intro hpaired st hst
    rcases writtenBy_of_mem hreturned hst with hmem | hwritten
    · exact Statement.sparesIdentity_of_eq_nil (forall_of_run_mapM_ok
        (fun _ _ _ _ => WrittenTable.tableWrites_fillLookup) hfilled st hmem)
    · cases hwritten with
      | lookup _ | output _ | returned _ _ => exact Statement.sparesIdentity_of_eq_nil rfl
      | stale _ hst => exact Statement.sparesIdentity_of_eq_nil (tableWrites_removeStale hst)
      | table hv hst =>
        have hvisit := (writeOrder_perm tree []).subset hv
        exact h.writeTable_sparesIdentity hkeyed hvisit
          (hpaired _ (Tree.label_mem_of_visitsBelow tree hvisit)) hst

end Founded

section Operations

variable {batch : Batch} {relations : Option Relations}

/-- No staged table is linked through a junction that has an identity column in its keys. -/
def PairsPlainly (p : Planner) : Prop :=
  ∀ t ∈ p.staged, ∀ id ∈ Link.pairedColumns t.link, p.schema.identity id = false

instance (p : Planner) : Decidable p.PairsPlainly :=
  inferInstanceAs (Decidable (∀ t ∈ p.staged, ∀ id ∈ Link.pairedColumns t.link,
    p.schema.identity id = false))

theorem PairsPlainly.of_unstaged (hstaged : p.staged = []) : p.PairsPlainly := by
  rw [PairsPlainly, hstaged]
  exact List.forall_mem_nil _

theorem plainInsert_sparesIdentity (hkeyed : p.schema.Keyed) (hnamed : p.schema.NamedApart)
    {t : WrittenTable} (htable : t.table ∈ p.schema.tables) (howned : t.Owned) {entity : Path}
    {single : Bool} (hrun : (plainInsert t entity single).run d = .ok (batch, d')) :
    ∀ st ∈ batch, st.SparesIdentity p.schema := by
  obtain ⟨names, _, _, hole, _, rfl⟩ := plainInsert_inv hrun
  refine List.forall_mem_singleton.mpr (List.forall_mem_singleton.mpr ?_)
  refine List.forall_mem_map.mpr fun w hw => ?_
  obtain ⟨hwritten, hsupplied⟩ := List.mem_filter.mp hw
  rw [Bool.and_eq_true, Bool.not_eq_true'] at hsupplied
  exact (Schema.identityNamed_eq hkeyed hnamed htable (howned.owned w hwritten)).trans hsupplied.2

theorem write_sparesIdentity_iff (hs : p.schema.Sound) (hkeyed : p.schema.Keyed)
    (hnamed : p.schema.NamedApart) (htable : p.table ∈ p.schema.tables)
    (hwrites : p.operation = .insert ∨ p.operation = .upsert ∨ p.operation = .sync)
    (hrun : p.write.run d = .ok ((batch, relations), d')) :
    (∀ st ∈ batch, st.SparesIdentity p.schema) ↔ p.PairsPlainly := by
  obtain ⟨entity, tree, hentity, htree, hbatch⟩ := p.write_plan hrun
  have hstaged := staged_of_write hentity htree hwrites
  have hfounded := writtenTree_founded hs hkeyed hnamed htable htree
  rcases hbatch with ⟨hplainly, hplain⟩ | ⟨filled, returned, hplainly, hfilled, hreturned, rfl⟩
  · have hroot := Tree.label_mem_preorder tree
    refine iff_of_true (plainInsert_sparesIdentity hkeyed hnamed (hfounded.tables _ hroot).table
      (hfounded.complete _ hroot).owned hplain) (.of_unstaged ?_)
    rw [hstaged, if_pos hplainly]
  · rw [PairsPlainly, hstaged, if_neg hplainly]
    exact hfounded.sparesIdentity_iff hkeyed hfilled hreturned

/-- No identity column is assigned from a single entity, even where it supplies one. -/
theorem entityColumns_plain {path : Path} {written : List WrittenColumn}
    {assignments : List Assignment} {filters : List Expr}
    (hrun : (p.entityColumns path written).run d = .ok ((assignments, filters), d')) :
    ∃ columns : List Column, assignments.filterMap Assignment.column? = columns.map Column.name ∧
      (∀ column ∈ columns, column.autoIncrement = false) ∧
        columns.Sublist (written.map WrittenColumn.column) := by
  induction written generalizing d d' assignments filters with
  | nil =>
    simp only [entityColumns, run_pure_ok, Prod.mk.injEq] at hrun
    obtain ⟨⟨rfl, rfl⟩, rfl⟩ := hrun
    exact ⟨[], rfl, List.forall_mem_nil _, List.Sublist.refl _⟩
  | cons first rest ih =>
    obtain ⟨column, source⟩ := first
    cases source with
    | none =>
      obtain ⟨columns, hcolumns, hplain, hsublist⟩ := ih hrun
      exact ⟨columns, hcolumns, hplain, hsublist.cons _⟩
    | some source =>
      simp only [entityColumns, run_bind_ok] at hrun
      obtain ⟨name, between, _, ⟨others, conditions⟩, after, hothers, hlast⟩ := hrun
      obtain ⟨columns, hcolumns, hplain, hsublist⟩ := ih hothers
      split at hlast
      · simp only [run_pure_ok, Prod.mk.injEq] at hlast
        obtain ⟨⟨rfl, rfl⟩, rfl⟩ := hlast
        exact ⟨columns, hcolumns, hplain, hsublist.cons _⟩
      · split at hlast
        · simp only [run_pure_ok, Prod.mk.injEq] at hlast
          obtain ⟨⟨rfl, rfl⟩, rfl⟩ := hlast
          exact ⟨columns, hcolumns, hplain, hsublist.cons _⟩
        · rename_i hidentity
          simp only [run_pure_ok, Prod.mk.injEq] at hlast
          obtain ⟨⟨rfl, rfl⟩, rfl⟩ := hlast
          refine ⟨column :: columns, ?_, ?_, hsublist.cons_cons _⟩
          · rw [List.filterMap_cons, hcolumns]
            rfl
          · exact List.forall_mem_cons.mpr ⟨Bool.eq_false_iff.mpr hidentity, hplain⟩

theorem updateByEntity_sparesIdentity (hs : p.schema.Sound) (hkeyed : p.schema.Keyed)
    (hnamed : p.schema.NamedApart) (htable : p.table ∈ p.schema.tables)
    (hrun : p.updateByEntity.run d = .ok (batch, d')) :
    ∀ st ∈ batch, st.SparesIdentity p.schema := by
  obtain ⟨entity, tree, _, htree, _, hbatch⟩ := p.updateByEntity_cases hrun
  have hfounded := writtenTree_founded hs hkeyed hnamed htable htree
  have hroot := Tree.label_mem_preorder tree
  have howned : (updatedTable tree.label).Owned := (hfounded.complete _ hroot).owned.updated
  rcases hbatch with ⟨fill, update, _, hfill, hrows, rfl⟩ |
    ⟨assignments, filters, _, hcolumns, _, rfl⟩
  · refine List.forall_mem_cons.mpr ⟨Statement.sparesIdentity_of_eq_nil rfl, List.forall_mem_cons.mpr
      ⟨Statement.sparesIdentity_of_eq_nil (WrittenTable.tableWrites_fillLookup hfill),
        List.forall_mem_singleton.mpr ?_⟩⟩
    have hroots : (updatedTable tree.label).table ∈ p.schema.tables := (hfounded.tables _ hroot).table
    exact WrittenTable.updateRows_sparesIdentity hkeyed hnamed hroots howned hrows
  · obtain ⟨columns, hassigned, hplain, hsublist⟩ := entityColumns_plain hcolumns
    have hwrites : (Statement.update
        ⟨p.table.name, assignments, none, Expr.allOf? filters⟩).tableWrites =
          [(p.table.name, columns.map Column.name)] :=
      congrArg (fun columns => [(p.table.name, columns)]) hassigned
    refine List.forall_mem_singleton.mpr
      ((Statement.sparesIdentity_iff hkeyed hnamed htable ?_ hwrites).mpr hplain)
    intro column hcolumn
    obtain ⟨w, hw, rfl⟩ := List.mem_map.mp (hsublist.subset hcolumn)
    have hmem := howned.owned w hw
    rwa [show (updatedTable tree.label).table = tree.label.table from rfl, hfounded.table] at hmem

/-- Everything but an update by SET arguments spares identity columns exactly if no junction that is
written has one in its keys. -/
theorem statements_sparesIdentity_iff (hs : p.schema.Sound) (hkeyed : p.schema.Keyed)
    (hnamed : p.schema.NamedApart) (htable : p.table ∈ p.schema.tables)
    (hset : p.operation = .update → p.arguments.set = [])
    (hrun : (Plan.statements p).run d = .ok ((batch, relations), d')) :
    (∀ st ∈ batch, st.SparesIdentity p.schema) ↔ p.PairsPlainly := by
  cases stated hrun with
  | select hselect =>
    exact iff_of_true (List.forall_mem_singleton.mpr (Statement.sparesIdentity_of_eq_nil rfl))
      (.of_unstaged (staged_of_unwritten (Or.inl hselect)))
  | write hoperation hwrite =>
    exact write_sparesIdentity_iff hs hkeyed hnamed htable hoperation hwrite
  | update hupdate hchange =>
    have hchange := updateByEntity_of_update hchange (hset hupdate)
    refine iff_of_true (updateByEntity_sparesIdentity hs hkeyed hnamed htable hchange) ?_
    obtain ⟨entity, tree, hentity, htree, _⟩ := p.updateByEntity_cases hchange
    rw [PairsPlainly, staged_of_entity hentity htree hupdate (hset hupdate)]
    split
    · rw [List.forall_mem_singleton,
        show (updatedTable tree.label).link = tree.label.link from rfl,
        (writtenTree_laid hs hkeyed htable htree).link]
      exact List.forall_mem_nil _
    · exact List.forall_mem_nil _
  | delete hdelete hdeletes =>
    obtain ⟨filter, rfl⟩ := delete_single hdeletes
    exact iff_of_true (List.forall_mem_singleton.mpr (Statement.sparesIdentity_of_eq_nil rfl))
      (.of_unstaged (staged_of_unwritten (Or.inr hdelete)))

end Operations

end Planner

end ShapeSql
