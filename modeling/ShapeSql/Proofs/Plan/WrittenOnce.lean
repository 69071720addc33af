import ShapeSql.Proofs.Plan.WriteSites
import ShapeSql.Proofs.Sql.ColumnLists

namespace ShapeSql

open Sql Planning

/-- The columns of the foreign keys that a link consists of, in the order of their pairs. -/
def Link.filledColumns : Option Link → List ColumnId
  | some (.parentHolds pairs) => pairs.map JoinPair.parent
  | some (.childHolds pairs) => pairs.map JoinPair.child
  | some (.junction _ toParent toChild) =>
    toParent.map JoinPair.child ++ toChild.map JoinPair.parent
  | none => []

section Names

variable {s : Schema} {table : Table}

/-- Columns of a table differ in their names if they differ at all. -/
theorem Schema.NamedApart.apart_iff (hnamed : s.NamedApart) (htable : table ∈ s.tables)
    {columns : List Column} (howned : ∀ column ∈ columns, column ∈ table.columns) :
    Apart (columns.map Column.name) ↔ columns.Nodup := by
  rw [Apart, List.map_map]
  refine ⟨fun h => h.of_map, fun h => h.map_on fun column hcolumn other hother hname => ?_⟩
  exact List.inj_on_of_nodup_map (hnamed table htable) (howned column hcolumn) (howned other hother)
    hname

theorem Schema.NamedApart.apart_ids_iff (hnamed : s.NamedApart) (hs : s.Sound)
    (htable : table ∈ s.tables) {ids : List ColumnId} (howned : ∀ id ∈ ids, table.Owns id) :
    Apart (ids.map s.columnName) ↔ ids.Nodup := by
  rw [Apart, List.map_map]
  refine ⟨fun h => h.of_map, fun h => h.map_on fun id hid other hother hname => ?_⟩
  exact hnamed.eq_of_columnName hs htable (howned id hid) (howned other hother) hname

/-- A foreign key is held by one table. -/
theorem WrittenTable.filledColumns_owned (hs : s.Sound) {parent child : WrittenTable}
    (hbelow : Below s parent child) (hparent : parent.table ∈ s.tables) (hchild : child.Sound s) :
    ∃ table ∈ s.tables, ∀ id ∈ Link.filledColumns child.link, table.Owns id := by
  obtain ⟨link, hlink, hbetween⟩ := hbelow.linked
  rw [hlink]
  cases link with
  | parentHolds pairs =>
    exact ⟨parent.table, hparent, List.forall_mem_map.mpr fun pair hpair => (hbetween pair hpair).1⟩
  | childHolds pairs =>
    exact ⟨child.table, hchild.table, List.forall_mem_map.mpr fun pair hpair =>
      (hbetween pair hpair).2⟩
  | junction junction toParent toChild =>
    obtain ⟨⟨table, htable, hid⟩, _, _⟩ := hchild.link _ hlink
    rw [Link.Between, ← hid, hs.table_id htable] at hbetween
    exact ⟨table, htable, List.forall_mem_append.mpr
      ⟨List.forall_mem_map.mpr fun pair hpair => (hbetween.1 pair hpair).2,
        List.forall_mem_map.mpr fun pair hpair => (hbetween.2 pair hpair).1⟩⟩

end Names

namespace WrittenTable

/-- The columns of the variable of a table: the numbers of rows and owners, and those written. -/
def variableColumns (t : WrittenTable) : List String :=
  indexColumn :: ((if t.link.isSome then [parentColumn] else []) ++
    t.columns.map fun w => w.column.name)

/-- No written column is named like the numbers of rows or of owners. -/
structure Numbered (t : WrittenTable) : Prop where
  index : ∀ w ∈ t.columns, sameName indexColumn w.column.name = false
  parent : t.link.isSome = true → ∀ w ∈ t.columns, sameName parentColumn w.column.name = false

/-- Nothing puts two values into one column: neither numbers and cells, nor two pairs of a link. -/
structure FillsOnce (t : WrittenTable) : Prop extends Numbered t where
  link : (Link.filledColumns t.link).Nodup

instance (t : WrittenTable) : Decidable t.FillsOnce :=
  decidable_of_iff (((∀ w ∈ t.columns, sameName indexColumn w.column.name = false) ∧
      (t.link.isSome = true → ∀ w ∈ t.columns, sameName parentColumn w.column.name = false)) ∧
    (Link.filledColumns t.link).Nodup)
    ⟨fun h => ⟨⟨h.1.1, h.1.2⟩, h.2⟩, fun h => ⟨⟨h.index, h.parent⟩, h.link⟩⟩

section Statements

variable {s : Schema} {t : WrittenTable}

/-- Some of the written columns of a table differ in their names. -/
theorem Owned.apart (howned : t.Owned) (hnamed : s.NamedApart) (htable : t.table ∈ s.tables)
    {columns : List Column} (h : columns.Sublist (t.columns.map WrittenColumn.column)) :
    Apart (columns.map Column.name) := by
  have hmem : ∀ column ∈ columns, column ∈ t.table.columns := by
    intro column hcolumn
    obtain ⟨w, hw, rfl⟩ := List.mem_map.mp (h.subset hcolumn)
    exact howned.owned w hw
  have hdistinct : (t.columns.map WrittenColumn.column).Nodup := by
    have hids := howned.distinct
    rw [show (fun w : WrittenColumn => w.column.id) = Column.id ∘ WrittenColumn.column from rfl,
      ← List.map_map] at hids
    exact hids.of_map
  exact (hnamed.apart_iff htable hmem).mpr (hdistinct.sublist h)

theorem keyColumns_apart (hs : s.Sound) (hnamed : s.NamedApart) (htable : t.table ∈ s.tables) :
    Apart (t.table.keyColumns.map Column.name) := by
  have hcolumns : Apart (t.table.columns.map Column.name) := by
    rw [Apart, List.map_map]
    exact hnamed t.table htable
  rw [(hs.laid t.table htable).keyColumns_eq]
  exact hcolumns.sublist (List.filter_sublist.map Column.name)

theorem variableColumns_apart_iff (hnamed : s.NamedApart) (htable : t.table ∈ s.tables)
    (howned : t.Owned) : Apart t.variableColumns ↔ t.Numbered := by
  have hwritten : Apart (t.columns.map fun w => w.column.name) := by
    have hall := howned.apart hnamed htable (List.Sublist.refl _)
    rwa [List.map_map] at hall
  have hnumbers : sameName indexColumn parentColumn = false := by decide
  rw [variableColumns, apart_cons]
  cases hlink : t.link.isSome with
  | true =>
    rw [if_pos rfl, List.singleton_append, apart_cons, List.forall_mem_cons, List.forall_mem_map,
      List.forall_mem_map]
    exact ⟨fun h => ⟨h.1.2, fun _ => h.2.1⟩,
      fun h => ⟨⟨hnumbers, h.index⟩, h.parent hlink, hwritten⟩⟩
  | false =>
    rw [if_neg Bool.false_ne_true, List.nil_append, List.forall_mem_map]
    exact ⟨fun h => ⟨h.1, fun hsome => absurd (hlink.symm.trans hsome) Bool.false_ne_true⟩,
      fun h => ⟨h.index, hwritten⟩⟩

theorem columnLists_declareLookup (t : WrittenTable) :
    t.declareLookup.columnLists = [t.variableColumns] := by
  rw [declareLookup, Statement.columnLists, variableColumns]
  split
  · simp
  · simp

theorem columnLists_fillLookup {entity : Path} {st : Statement} {d d' : Draft}
    (hrun : (Planner.fillLookup t entity).run d = .ok (st, d')) :
    st.columnLists = [t.variableColumns] := by
  obtain ⟨base, _, _, hole, _, rfl⟩ := Planner.fillLookup_inv hrun
  rfl

theorem columnLists_copyKeys (other : WrittenTable) (copied : List (ColumnId × ColumnId))
    (own others : String) :
    (t.copyKeys s other copied own others).columnLists =
      [(copied.map Prod.fst).map s.columnName] := by
  rw [copyKeys, Statement.columnLists, List.map_map]
  exact congrArg (fun columns => [columns]) (columns_map_set copied _ _)

theorem columnLists_copyKeys_childHolds {pairs : List JoinPair} (other : WrittenTable)
    (own others : String) (hlink : t.link = some (.childHolds pairs)) :
    (t.copyKeys s other (pairs.map fun pair => (pair.child, pair.parent)) own others).columnLists =
      [(Link.filledColumns t.link).map s.columnName] := by
  rw [columnLists_copyKeys, hlink, Link.filledColumns]
  simp only [List.map_map, Function.comp_def]

theorem columnLists_copyKeys_parentHolds {child : WrittenTable} {pairs : List JoinPair}
    (own others : String) (hlink : child.link = some (.parentHolds pairs)) :
    (t.copyKeys s child (pairs.map fun pair => (pair.parent, pair.child)) own others).columnLists =
      [(Link.filledColumns child.link).map s.columnName] := by
  rw [columnLists_copyKeys, hlink, Link.filledColumns]
  simp only [List.map_map, Function.comp_def]

/-- The numbers of captured keys are told from the keys. -/
theorem captured_apart (hs : s.Sound) (hnamed : s.NamedApart) (htable : t.table ∈ s.tables)
    (hcomplete : t.Complete) (h : t.Numbered) :
    Apart (indexColumn :: t.table.keyColumns.map Column.name) := by
  refine apart_cons.mpr ⟨List.forall_mem_map.mpr fun column hcolumn => ?_,
    keyColumns_apart hs hnamed htable⟩
  obtain ⟨w, hw, rfl⟩ := key_written hs htable hcomplete column hcolumn
  exact h.index w hw

theorem declareOutput_writesOnce (hs : s.Sound) (hnamed : s.NamedApart) (htable : t.table ∈ s.tables)
    (hcomplete : t.Complete) (h : t.Numbered) : t.declareOutput.WritesOnce := by
  refine (Statement.writesOnce_iff_apart ?_).mpr (captured_apart hs hnamed htable hcomplete h)
  rw [declareOutput, Statement.columnLists, List.map_cons, List.map_map]
  rfl

theorem writeBack_writesOnce (hs : s.Sound) (hnamed : s.NamedApart) (htable : t.table ∈ s.tables) :
    t.writeBack.WritesOnce := by
  refine (Statement.writesOnce_iff_apart ?_).mpr (keyColumns_apart hs hnamed htable)
  exact congrArg (fun columns => [columns]) (columns_map_set t.table.keyColumns Column.name _)

theorem mergeRows_writesOnce (hs : s.Sound) (hnamed : s.NamedApart) (htable : t.table ∈ s.tables)
    (hcomplete : t.Complete) (h : t.Numbered) (upsert : Bool) : (t.mergeRows upsert).WritesOnce := by
  have hinserted : Apart (t.insertColumns.map Column.name) :=
    hcomplete.owned.apart hnamed htable List.filter_sublist
  have hnone : Apart [] := List.nodup_nil
  refine List.forall_mem_cons.mpr ⟨hnone, List.forall_mem_cons.mpr ⟨hinserted, ?_⟩⟩
  rw [List.forall_mem_singleton]
  show Apart (Option.elim (if t.table.keyColumns.isEmpty then _ else _) [] OutputInto.columns)
  split
  · exact hnone
  · exact captured_apart hs hnamed htable hcomplete h

theorem updateRows_writesOnce (hnamed : s.NamedApart) (htable : t.table ∈ s.tables)
    (howned : t.Owned) {st : Statement} (h : t.updateRows = some st) : st.WritesOnce := by
  obtain ⟨_, rfl⟩ := updateRows_inv h
  have hassigned : Apart (t.updateColumns.map Column.name) :=
    howned.apart hnamed htable List.filter_sublist
  refine (Statement.writesOnce_iff_apart ?_).mpr hassigned
  exact congrArg (fun columns => [columns]) (columns_map_set t.updateColumns Column.name _)

/-- An update by entities uses fewer columns of the table. -/
theorem Owned.updated (howned : t.Owned) : (Planner.updatedTable t).Owned :=
  ⟨fun w hw => howned.owned w (List.mem_of_mem_filter hw),
    howned.distinct.sublist (List.filter_sublist.map _)⟩

end Statements

end WrittenTable

namespace Planner

variable {p : Planner} {tree : WrittenTree} {d d' : Draft}

theorem columnLists_insertJunction (p : Planner) (t parent : WrittenTable) (junction : Table)
    (id : TableId) (toParent toChild : List JoinPair) (upsert : Bool) :
    (p.insertJunction t parent junction toParent toChild upsert).columnLists =
      [(Link.filledColumns (some (.junction id toParent toChild))).map p.schema.columnName] := by
  rw [insertJunction, Statement.columnLists, Link.filledColumns, List.map_append, List.map_map,
    List.map_map]
  rfl

/-- What copies keys assigns the columns of a link above or below. -/
theorem columnLists_copiedKeys {v : Tree.Visit WrittenTable} {st : Statement}
    (hst : st ∈ p.copiedKeys v) :
    ∃ parent child, ((v.parent? = some parent ∧ v.label = child) ∨
        (v.label = parent ∧ child ∈ v.children)) ∧
      st.columnLists = [(Link.filledColumns child.link).map p.schema.columnName] := by
  rcases p.copiedKeys_cases hst with
    ⟨parent, pairs, hparent, hlink, rfl⟩ | ⟨child, pairs, hchild, hlink, rfl⟩
  · exact ⟨parent, v.label, Or.inl ⟨hparent, rfl⟩,
      WrittenTable.columnLists_copyKeys_childHolds _ _ _ hlink⟩
  · exact ⟨v.label, child, Or.inr ⟨rfl, hchild⟩,
      WrittenTable.columnLists_copyKeys_parentHolds _ _ hlink⟩

section Statements

variable {v : Tree.Visit WrittenTable} {parent child : WrittenTable} {pairs : List JoinPair}
  {upsert : Bool}

theorem copyKeys_mem_of_childHolds (hparent : v.parent? = some parent)
    (hlink : v.label.link = some (.childHolds pairs)) :
    v.label.copyKeys p.schema parent (pairs.map fun pair => (pair.child, pair.parent)) parentColumn
      indexColumn ∈ p.writeTable upsert v := by
  refine List.mem_append_left _ (List.mem_append_left _ (List.mem_append_left _ ?_))
  rw [hparent, hlink]
  exact List.mem_singleton.mpr rfl

theorem copyKeys_mem_of_parentHolds (hchild : child ∈ v.children)
    (hlink : child.link = some (.parentHolds pairs)) :
    v.label.copyKeys p.schema child (pairs.map fun pair => (pair.parent, pair.child)) indexColumn
      parentColumn ∈ p.writeTable upsert v := by
  refine List.mem_append_left _ (List.mem_append_left _ (List.mem_append_right _ ?_))
  refine List.mem_filterMap.mpr ⟨child, hchild, ?_⟩
  rw [hlink]

theorem insertJunction_mem {junction : TableId} {toParent toChild : List JoinPair}
    (hparent : v.parent? = some parent)
    (hlink : v.label.link = some (.junction junction toParent toChild)) :
    p.insertJunction v.label parent (p.schema.table junction) toParent toChild upsert ∈
      p.writeTable upsert v := by
  refine List.mem_append_right _ ?_
  rw [hparent]
  simp only [hlink]
  exact List.mem_singleton.mpr rfl

/-- A statement that lists the columns of a link's keys lists none twice if there is none twice. -/
theorem writesOnce_link_iff (hs : p.schema.Sound) (hnamed : p.schema.NamedApart)
    (hbelow : WrittenTable.Below p.schema parent child) (hparent : parent.table ∈ p.schema.tables)
    (hchild : child.Sound p.schema) {st : Statement}
    (hlists : st.columnLists = [(Link.filledColumns child.link).map p.schema.columnName]) :
    st.WritesOnce ↔ (Link.filledColumns child.link).Nodup := by
  obtain ⟨table, htable, howned⟩ := WrittenTable.filledColumns_owned hs hbelow hparent hchild
  exact (Statement.writesOnce_iff_apart hlists).trans (hnamed.apart_ids_iff hs htable howned)

end Statements

theorem removeStale_writesOnce {v : Tree.Visit WrittenTable} {st : Statement}
    (hst : st ∈ p.removeStale v) : st.WritesOnce := by
  obtain ⟨_, _, rfl⟩ := p.delete_of_removeStale hst
  exact List.forall_mem_nil _

section Batch

variable {filled returned : Batch} {relations : Option Relations} {entity : Path}

/-- A tree of tables that is laid out over a schema. -/
structure Founded (p : Planner) (tree : WrittenTree) : Prop extends Laid p tree where
  sound : p.schema.Sound
  named : p.schema.NamedApart
  tables : ∀ t ∈ tree.preorder, t.Sound p.schema

namespace Founded

variable (h : p.Founded tree)

include h

theorem below {v : Tree.Visit WrittenTable} (hv : v ∈ tree.visits) :
    v.Tied (WrittenTable.Below p.schema) := by
  have hedges : tree.Edges (WrittenTable.Below p.schema) :=
    Tree.Edges.mono tree (fun _ _ _ _ hedge => hedge.1) h.edges
  exact Tree.Edges.tied tree nofun hedges v hv

omit h in
theorem mem_writes {v : Tree.Visit WrittenTable} (hv : v ∈ tree.visits) {st : Statement}
    (hst : st ∈ p.writeTable (p.operation ≠ .insert) v) : st ∈ p.writes tree :=
  List.mem_flatMap.mpr ⟨v, (writeOrder_perm tree []).symm.subset hv, hst⟩

/-- A linked table is visited below the one that it is linked to. -/
theorem visit_of_linked {t : WrittenTable} (ht : t ∈ tree.preorder) {link : Link}
    (hlink : t.link = some link) :
    ∃ v ∈ tree.visits, ∃ w ∈ tree.visits, v.label = t ∧ v.parent? = some w.label ∧
      t ∈ w.children := by
  rw [← Tree.map_label_visitsBelow tree []] at ht
  obtain ⟨v, hv, rfl⟩ := List.mem_map.mp ht
  rcases Tree.parent_of_visitsBelow tree v hv with ⟨_, hroot⟩ | ⟨w, hw, hparent, hchild⟩
  · rw [hroot, h.link] at hlink
    cases hlink
  · exact ⟨v, hv, w, hw, rfl, hparent, hchild⟩

/-- The keys of every link are listed by one of the statements. -/
theorem lists_link {t : WrittenTable} (ht : t ∈ tree.preorder) {link : Link}
    (hlink : t.link = some link) :
    ∃ st ∈ p.writes tree, st.WritesOnce ↔ (Link.filledColumns t.link).Nodup := by
  obtain ⟨v, hv, w, hw, rfl, hparent, hchild⟩ := h.visit_of_linked ht hlink
  have hmem : ∀ u ∈ tree.visits, u.label ∈ tree.preorder := fun u hu =>
    Tree.label_mem_of_visitsBelow tree hu
  have hiff : ∀ {st : Statement},
      st.columnLists = [(Link.filledColumns v.label.link).map p.schema.columnName] →
        (st.WritesOnce ↔ (Link.filledColumns v.label.link).Nodup) :=
    writesOnce_link_iff h.sound h.named ((h.below hv).above w.label hparent)
      (h.tables _ (hmem w hw)).table (h.tables _ (hmem v hv))
  cases link with
  | parentHolds pairs =>
    exact ⟨_, mem_writes hw (copyKeys_mem_of_parentHolds hchild hlink),
      hiff (WrittenTable.columnLists_copyKeys_parentHolds _ _ hlink)⟩
  | childHolds pairs =>
    exact ⟨_, mem_writes hv (copyKeys_mem_of_childHolds hparent hlink),
      hiff (WrittenTable.columnLists_copyKeys_childHolds _ _ _ hlink)⟩
  | junction junction toParent toChild =>
    refine ⟨_, mem_writes hv (insertJunction_mem hparent hlink), hiff ?_⟩
    rw [columnLists_insertJunction, hlink]

/-- A statement that lists the columns of a variable lists none twice if its numbers are told apart. -/
theorem numbered_iff {t : WrittenTable} (ht : t ∈ tree.preorder) {st : Statement}
    (hlists : st.columnLists = [t.variableColumns]) : st.WritesOnce ↔ t.Numbered :=
  (Statement.writesOnce_iff_apart hlists).trans
    (WrittenTable.variableColumns_apart_iff h.named (h.tables t ht).table (h.complete t ht).owned)

/-- What writes a table lists no column twice, if nothing is put into one twice. -/
theorem writeTable_writesOnce (hfills : ∀ t ∈ tree.preorder, t.FillsOnce)
    {v : Tree.Visit WrittenTable} (hv : v ∈ tree.visits) {upsert : Bool} {st : Statement}
    (hst : st ∈ p.writeTable upsert v) : st.WritesOnce := by
  have hmem : v.label ∈ tree.preorder := Tree.label_mem_of_visitsBelow tree hv
  have htable := (h.tables _ hmem).table
  have hcomplete := h.complete _ hmem
  have hall : v.All (· ∈ tree.preorder) := Tree.all_of_visitsBelow tree nofun (fun _ ht => ht) v hv
  have hlinked : ∀ {parent child : WrittenTable}, WrittenTable.Below p.schema parent child →
      parent ∈ tree.preorder → child ∈ tree.preorder →
        st.columnLists = [(Link.filledColumns child.link).map p.schema.columnName] →
          st.WritesOnce := fun hbelow hparent hchild hlists =>
    (writesOnce_link_iff h.sound h.named hbelow (h.tables _ hparent).table (h.tables _ hchild)
      hlists).mpr (hfills _ hchild).link
  have habove : ∀ {parent : WrittenTable}, v.parent? = some parent → parent ∈ tree.preorder :=
    fun hparent => hall.ancestors _ (List.mem_of_mem_head? hparent)
  rcases p.writeTable_cases hst with
    hcopied | rfl | ⟨_, rfl⟩ | hupdate | ⟨parent, junction, toParent, toChild, hparent, hlink, rfl⟩
  · obtain ⟨parent, child, ⟨hparent, rfl⟩ | ⟨rfl, hchild⟩, hlists⟩ := columnLists_copiedKeys hcopied
    · exact hlinked ((h.below hv).above _ hparent) (habove hparent) hmem hlists
    · exact hlinked ((h.below hv).below _ hchild) hmem (hall.children _ hchild) hlists
  · exact WrittenTable.mergeRows_writesOnce h.sound h.named htable hcomplete
      (hfills _ hmem).toNumbered upsert
  · exact WrittenTable.writeBack_writesOnce h.sound h.named htable
  · exact WrittenTable.updateRows_writesOnce h.named htable hcomplete.owned hupdate
  · refine hlinked ((h.below hv).above _ hparent) (habove hparent) hmem ?_
    rw [columnLists_insertJunction, hlink]

/-- A write lists no column twice exactly if nothing is put into one twice. -/
theorem writesOnce_iff
    (hfilled : (tree.preorder.mapM fun t => fillLookup t entity).run d = .ok (filled, d'))
    (hreturned : p.Returned returned relations) :
    (∀ st ∈ declarations tree ++ filled ++ p.writes tree ++ p.removals tree ++ returned,
      st.WritesOnce) ↔ ∀ t ∈ tree.preorder, t.FillsOnce := by
  constructor
  · intro hall t ht
    simp only [List.forall_mem_append] at hall
    obtain ⟨⟨⟨⟨hdeclared, _⟩, hwritten⟩, _⟩, _⟩ := hall
    have hlookup := hdeclared _ (List.mem_flatMap.mpr ⟨t, ht, List.mem_cons_self⟩)
    refine ⟨(h.numbered_iff ht t.columnLists_declareLookup).mp hlookup, ?_⟩
    cases hlink : t.link with
    | none => exact List.nodup_nil
    | some link =>
      obtain ⟨st, hst, honce⟩ := h.lists_link ht hlink
      rw [← hlink]
      exact honce.mp (hwritten st hst)
  · intro hfills st hst
    have hvariable : ∀ t ∈ tree.preorder, st.columnLists = [t.variableColumns] → st.WritesOnce :=
      fun t ht hlists => (h.numbered_iff ht hlists).mpr (hfills t ht).toNumbered
    rcases writtenBy_of_mem hreturned hst with hmem | hwritten
    · have heach : List.Forall₂ (fun t st => Statement.columnLists st = [t.variableColumns])
          tree.preorder filled :=
        forall₂_of_run_mapM_ok (fun _ _ _ _ => WrittenTable.columnLists_fillLookup) hfilled
      obtain ⟨t, ht, hlists⟩ := mem_left_of_forall₂ heach hmem
      exact hvariable t ht hlists
    · cases hwritten with
      | lookup ht => exact hvariable _ ht (WrittenTable.columnLists_declareLookup _)
      | output ht =>
        exact WrittenTable.declareOutput_writesOnce h.sound h.named (h.tables _ ht).table
          (h.complete _ ht) (hfills _ ht).toNumbered
      | table hv hst => exact h.writeTable_writesOnce hfills ((writeOrder_perm tree []).subset hv) hst
      | stale _ hst => exact removeStale_writesOnce hst
      | returned _ _ => exact List.forall_mem_nil _

end Founded

end Batch

/-- The tables whose rows go through variables. A plain insert needs none, nor does an update by a
single entity. -/
def staged (p : Planner) : List WrittenTable :=
  match p.entity with
  | .error _ => []
  | .ok entity =>
    match p.writtenTree entity with
    | .error _ => []
    | .ok tree =>
      match p.operation with
      | .insert | .upsert | .sync => if p.WritesPlainly tree then [] else tree.preorder
      | .update =>
        if p.arguments.set.isEmpty && entity.label.isList then [updatedTable tree.label] else []
      | .select | .delete => []

/-- An update by SET arguments stages nothing. -/
theorem staged_of_set (hupdate : p.operation = .update) (hset : p.arguments.set ≠ []) :
    p.staged = [] := by
  have hgiven : p.arguments.set.isEmpty = false := by
    rw [List.isEmpty_eq_false_iff]
    exact hset
  unfold staged
  split
  · rfl
  · split
    · rfl
    · simp only [hupdate, hgiven, Bool.false_and, Bool.false_eq_true, if_false]

theorem staged_of_write {entity : FieldTree} (hentity : p.entity = .ok entity)
    (htree : p.writtenTree entity = .ok tree)
    (hwrites : p.operation = .insert ∨ p.operation = .upsert ∨ p.operation = .sync) :
    p.staged = if p.WritesPlainly tree then [] else tree.preorder := by
  unfold staged
  rw [hentity]
  simp only [htree]
  rcases hwrites with h | h | h
  · rw [h]
  · rw [h]
  · rw [h]

theorem staged_of_entity {entity : FieldTree} (hentity : p.entity = .ok entity)
    (htree : p.writtenTree entity = .ok tree) (hupdate : p.operation = .update)
    (hset : p.arguments.set = []) :
    p.staged = if entity.label.isList then [updatedTable tree.label] else [] := by
  unfold staged
  rw [hentity]
  simp only [htree, hupdate, hset, List.isEmpty_nil, Bool.true_and]

/-- A select or a delete stages nothing. -/
theorem staged_of_unwritten (h : p.operation = .select ∨ p.operation = .delete) : p.staged = [] := by
  unfold staged
  split
  · rfl
  · split
    · rfl
    · rcases h with h | h
      · rw [h]
      · rw [h]

theorem writtenTree_founded (hs : p.schema.Sound) (hkeyed : p.schema.Keyed)
    (hnamed : p.schema.NamedApart) (htable : p.table ∈ p.schema.tables) {entity : FieldTree}
    (htree : p.writtenTree entity = .ok tree) : p.Founded tree where
  toLaid := writtenTree_laid hs hkeyed htable htree
  sound := hs
  named := hnamed
  tables := writtenTree_sound hs htable htree

/-- Every assignment of the batch is spelled out, and no column is named twice exactly if no staged
table is filled twice. -/
structure WritesOnceIf (p : Planner) (batch : Batch) : Prop where
  spelled : ∀ st ∈ batch, st.Spelled
  once : (∀ st ∈ batch, st.WritesOnce) ↔ ∀ t ∈ p.staged, t.FillsOnce

section Operations

variable {batch : Batch} {relations : Option Relations} {entity : FieldTree}

/-- A batch that names no column twice, and stages no table. -/
theorem WritesOnceIf.of_unstaged (h : ∀ st ∈ batch, st.Spelled ∧ st.WritesOnce)
    (hstaged : p.staged = []) : p.WritesOnceIf batch where
  spelled st hst := (h st hst).1
  once := by
    rw [hstaged]
    exact iff_of_true (fun st hst => (h st hst).2) (List.forall_mem_nil _)

theorem fillLookup_spelled {t : WrittenTable} {entity : Path} {st : Statement}
    (hrun : (fillLookup t entity).run d = .ok (st, d')) : st.Spelled := by
  obtain ⟨base, _, _, hole, _, rfl⟩ := fillLookup_inv hrun
  exact List.forall_mem_nil _

theorem plainInsert_writesOnce (hnamed : p.schema.NamedApart) {t : WrittenTable}
    (htable : t.table ∈ p.schema.tables) (howned : t.Owned) {entity : Path} {single : Bool}
    (hrun : (plainInsert t entity single).run d = .ok (batch, d')) :
    ∀ st ∈ batch, st.Spelled ∧ st.WritesOnce := by
  obtain ⟨names, _, _, hole, _, rfl⟩ := plainInsert_inv hrun
  let supplied := t.columns.filter fun w => w.source.isSome && !w.column.autoIncrement
  have hsupplied : Apart ((supplied.map WrittenColumn.column).map Column.name) :=
    howned.apart hnamed htable (List.filter_sublist.map WrittenColumn.column)
  rw [List.map_map] at hsupplied
  exact List.forall_mem_singleton.mpr
    ⟨List.forall_mem_nil _, (Statement.writesOnce_iff_apart rfl).mpr hsupplied⟩

theorem write_writesOnce (hs : p.schema.Sound) (hkeyed : p.schema.Keyed) (hnamed : p.schema.NamedApart)
    (htable : p.table ∈ p.schema.tables)
    (hwrites : p.operation = .insert ∨ p.operation = .upsert ∨ p.operation = .sync)
    (hrun : p.write.run d = .ok ((batch, relations), d')) : p.WritesOnceIf batch := by
  obtain ⟨entity, tree, hentity, htree, hbatch⟩ := p.write_plan hrun
  have hstaged := staged_of_write hentity htree hwrites
  have hfounded := writtenTree_founded hs hkeyed hnamed htable htree
  rcases hbatch with ⟨hplainly, hplain⟩ | ⟨filled, returned, hplainly, hfilled, hreturned, rfl⟩
  · have hroot := Tree.label_mem_preorder tree
    refine .of_unstaged (plainInsert_writesOnce hnamed (hfounded.tables _ hroot).table
      (hfounded.complete _ hroot).owned hplain) ?_
    rw [hstaged, if_pos hplainly]
  · refine ⟨fun st hst => ?_, ?_⟩
    · rcases writtenBy_of_mem hreturned hst with hmem | hwritten
      · exact forall_of_run_mapM_ok (fun _ _ _ _ => fillLookup_spelled) hfilled st hmem
      · exact Statement.spelled_of_leaves hwritten.leaves_eq_nil
    · rw [hstaged, if_neg hplainly]
      exact hfounded.writesOnce_iff hfilled hreturned

/-- The columns that a single entity assigns are among those it supplies. -/
theorem entityColumns_columns {path : Path} {written : List WrittenColumn}
    {assignments : List Assignment} {filters : List Expr}
    (hrun : (p.entityColumns path written).run d = .ok ((assignments, filters), d')) :
    (∀ a ∈ assignments, a.column?.isSome = true) ∧
      (assignments.filterMap Assignment.column?).Sublist
        ((written.map WrittenColumn.column).map Column.name) := by
  induction written generalizing d d' assignments filters with
  | nil =>
    simp only [entityColumns, run_pure_ok, Prod.mk.injEq] at hrun
    obtain ⟨⟨rfl, rfl⟩, rfl⟩ := hrun
    exact ⟨List.forall_mem_nil _, List.Sublist.refl _⟩
  | cons first rest ih =>
    obtain ⟨column, source⟩ := first
    cases source with
    | none => exact (ih hrun).imp_right fun hrest => hrest.cons _
    | some source =>
      simp only [entityColumns, run_bind_ok] at hrun
      obtain ⟨name, between, _, ⟨others, conditions⟩, after, hothers, hlast⟩ := hrun
      obtain ⟨hspelled, hrest⟩ := ih hothers
      split at hlast
      · simp only [run_pure_ok, Prod.mk.injEq] at hlast
        obtain ⟨⟨rfl, rfl⟩, rfl⟩ := hlast
        exact ⟨hspelled, hrest.cons _⟩
      · split at hlast
        · simp only [run_pure_ok, Prod.mk.injEq] at hlast
          obtain ⟨⟨rfl, rfl⟩, rfl⟩ := hlast
          exact ⟨hspelled, hrest.cons _⟩
        · simp only [run_pure_ok, Prod.mk.injEq] at hlast
          obtain ⟨⟨rfl, rfl⟩, rfl⟩ := hlast
          exact ⟨List.forall_mem_cons.mpr ⟨rfl, hspelled⟩, hrest.cons_cons _⟩

theorem updateByEntity_writesOnce (hs : p.schema.Sound) (hkeyed : p.schema.Keyed)
    (hnamed : p.schema.NamedApart) (htable : p.table ∈ p.schema.tables)
    (hupdate : p.operation = .update) (hset : p.arguments.set = [])
    (hrun : p.updateByEntity.run d = .ok (batch, d')) : p.WritesOnceIf batch := by
  obtain ⟨entity, tree, hentity, htree, _, hbatch⟩ := p.updateByEntity_cases hrun
  have hstaged := staged_of_entity hentity htree hupdate hset
  have hlaid := writtenTree_laid hs hkeyed htable htree
  have hroot := Tree.label_mem_preorder tree
  have hroots : (updatedTable tree.label).table ∈ p.schema.tables :=
    (writtenTree_sound hs htable htree _ hroot).table
  have howned : (updatedTable tree.label).Owned := (hlaid.complete _ hroot).owned.updated
  rcases hbatch with ⟨fill, update, hlist, hfill, hrows, rfl⟩ |
    ⟨assignments, filters, hlist, hcolumns, _, rfl⟩
  · have hassigns := WrittenTable.updateRows_writesOnce hnamed hroots howned hrows
    have hlink : (Link.filledColumns (updatedTable tree.label).link).Nodup := by
      rw [show (updatedTable tree.label).link = tree.label.link from rfl, hlaid.link]
      exact List.nodup_nil
    refine ⟨?_, ?_⟩
    · exact List.forall_mem_cons.mpr ⟨List.forall_mem_nil _, List.forall_mem_cons.mpr
        ⟨fillLookup_spelled hfill, List.forall_mem_singleton.mpr
          (Statement.spelled_of_leaves (WrittenTable.collect_updateRows hrows))⟩⟩
    · rw [hstaged, if_pos hlist, List.forall_mem_singleton, List.forall_mem_cons, List.forall_mem_cons,
        List.forall_mem_singleton,
        Statement.writesOnce_iff_apart (WrittenTable.columnLists_declareLookup _),
        Statement.writesOnce_iff_apart (WrittenTable.columnLists_fillLookup hfill),
        WrittenTable.variableColumns_apart_iff hnamed hroots howned]
      exact ⟨fun h => ⟨h.1, hlink⟩, fun h => ⟨h.toNumbered, h.toNumbered, hassigns⟩⟩
  · obtain ⟨hspelled, hsublist⟩ := entityColumns_columns hcolumns
    refine .of_unstaged ?_ ?_
    · have hassigned := (howned.apart hnamed hroots (List.Sublist.refl _)).sublist hsublist
      exact List.forall_mem_singleton.mpr
        ⟨hspelled, (Statement.writesOnce_iff_apart rfl).mpr hassigned⟩
    · rw [hstaged, hlist, if_neg Bool.false_ne_true]

theorem delete_single (hrun : p.delete.run d = .ok (batch, d')) :
    ∃ filter, batch = [.delete (.table p.table.name none) filter] := by
  simp only [delete, run_bind_ok] at hrun
  obtain ⟨found, _, _, hrest⟩ := hrun
  cases found with
  | some entity =>
    simp only [run_bind_ok, run_pure_ok] at hrest
    obtain ⟨condition, _, _, _, _, ⟨rfl, rfl⟩, rfl, rfl⟩ := hrest
    exact ⟨_, rfl⟩
  | none =>
    simp only [run_bind_ok, run_pure_ok] at hrest
    obtain ⟨filters, _, _, _, _, ⟨rfl, rfl⟩, rfl, rfl⟩ := hrest
    exact ⟨_, rfl⟩

/-- Everything but an update by SET arguments is planned with spelled out assignments, and names no
column twice exactly if no staged table is filled twice. -/
theorem statements_writesOnce (hs : p.schema.Sound) (hkeyed : p.schema.Keyed)
    (hnamed : p.schema.NamedApart) (htable : p.table ∈ p.schema.tables)
    (hset : p.operation = .update → p.arguments.set = [])
    (hrun : (Plan.statements p).run d = .ok ((batch, relations), d')) : p.WritesOnceIf batch := by
  cases stated hrun with
  | select hselect =>
    refine .of_unstaged ?_ (staged_of_unwritten (Or.inl hselect))
    exact List.forall_mem_singleton.mpr ⟨List.forall_mem_nil _, List.forall_mem_nil _⟩
  | write hoperation hwrite =>
    exact write_writesOnce hs hkeyed hnamed htable hoperation hwrite
  | update hupdate hchange =>
    exact updateByEntity_writesOnce hs hkeyed hnamed htable hupdate (hset hupdate)
      (updateByEntity_of_update hchange (hset hupdate))
  | delete hdelete hdeletes =>
    refine .of_unstaged ?_ (staged_of_unwritten (Or.inr hdelete))
    obtain ⟨filter, rfl⟩ := delete_single hdeletes
    exact List.forall_mem_singleton.mpr ⟨List.forall_mem_nil _, List.forall_mem_nil _⟩

end Operations

end Planner

end ShapeSql
