import ShapeSql.Proofs.Plan.Written
import ShapeSql.Proofs.Relation.Edges

namespace ShapeSql

open Sql

namespace WrittenTable

/-- The table is linked to the one above it, and its elements lie one step below those of that one. -/
structure Below (s : Schema) (parent child : WrittenTable) : Prop where
  linked : ∃ link, child.link = some link ∧ link.Between s parent.table child.table
  step : ∃ step, child.levels = parent.levels ++ [step]

/-- The columns are columns of the table, and none is there twice. -/
structure ColumnsOf (table : Table) (columns : List WrittenColumn) : Prop where
  owned : ∀ c ∈ columns, c.column ∈ table.columns
  distinct : (columns.map fun c => c.column.id).Nodup

theorem columnsOf_nil (table : Table) : ColumnsOf table [] :=
  ⟨List.forall_mem_nil _, List.nodup_nil⟩

/-- The written columns are columns of the table, each of them written once. -/
def Owned (t : WrittenTable) : Prop := ColumnsOf t.table t.columns

/-- The column of this number is written. -/
def Has (t : WrittenTable) (id : ColumnId) : Prop := ∃ c ∈ t.columns, c.column.id = id

/-- The columns that a table has in the end, whatever its fields supply. -/
structure Complete (t : WrittenTable) : Prop where
  owned : t.Owned
  key : ∀ id ∈ t.table.primaryKey, t.Has id
  own : ∀ id ∈ Link.ownColumns t.link, t.Has id

/-- The columns of the key are among those that the table is written by. -/
theorem key_written {s : Schema} (hs : s.Sound) {t : WrittenTable}
    (htable : t.table ∈ s.tables) (h : t.Complete) :
    ∀ column ∈ t.table.keyColumns, ∃ w ∈ t.columns, w.column = column := by
  intro column hcolumn
  have hlaid := hs.laid t.table htable
  have hmem := hlaid.mem_of_mem_keyColumns hcolumn
  rw [hlaid.keyColumns_eq] at hcolumn
  have hkey : column.id ∈ t.table.primaryKey := hlaid.key ▸ List.mem_map_of_mem hcolumn
  obtain ⟨w, hw, hid⟩ := h.key _ hkey
  exact ⟨w, hw, hlaid.eq_of_id (h.owned.owned w hw) hmem hid⟩

/-- A table holds the foreign key that refers to a table below it. -/
def Refers (parent child : WrittenTable) : Prop :=
  ∀ id ∈ Link.columnsAbove child.link, parent.Has id

end WrittenTable

/-- Trees of tables below one, numbered from `n` up to `n'`. -/
structure Grown (s : Schema) (parent : WrittenTable) (n n' : Nat) (trees : List WrittenTree) :
    Prop where
  le : n ≤ n'
  numbered : (Tree.preorderAll trees).map WrittenTable.index = List.range' n (n' - n)
  below : Tree.EdgesBelow (WrittenTable.Below s) parent trees
  owned : ∀ t ∈ Tree.preorderAll trees, t.Owned

namespace Grown

variable {s : Schema} {parent t : WrittenTable} {n n' n'' : Nat} {xs ys kids : List WrittenTree}

theorem nil (s : Schema) (parent : WrittenTable) (n : Nat) : Grown s parent n n [] where
  le := Nat.le_refl n
  numbered := by
    rw [Nat.sub_self]
    rfl
  below := trivial
  owned := nofun

theorem append (hxs : Grown s parent n n' xs) (hys : Grown s parent n' n'' ys) :
    Grown s parent n n'' (xs ++ ys) where
  le := Nat.le_trans hxs.le hys.le
  numbered := by
    have hle := hxs.le
    have hle' := hys.le
    have hlength : n'' - n = (n' - n) + (n'' - n') := by omega
    have hnext : n + (n' - n) = n' := by omega
    rw [Tree.preorderAll_eq_flatMap, List.flatMap_append, List.map_append,
      ← Tree.preorderAll_eq_flatMap, ← Tree.preorderAll_eq_flatMap, hxs.numbered, hys.numbered,
      hlength, ← List.range'_append_1, hnext]
  below := Tree.edgesBelow_iff.mpr (List.forall_mem_append.mpr
    ⟨Tree.edgesBelow_iff.mp hxs.below, Tree.edgesBelow_iff.mp hys.below⟩)
  owned := fun w hw => (Tree.mem_preorderAll_append.mp hw).elim (hxs.owned w) (hys.owned w)

/-- A table takes the next number, those below it the ones that follow. -/
theorem node (hkids : Grown s t (n + 1) n' kids) (hindex : t.index = n)
    (hbelow : WrittenTable.Below s parent t) (howned : t.Owned) : Grown s parent n n' [.node t kids] where
  le := Nat.le_of_succ_le hkids.le
  numbered := by
    have hle := hkids.le
    have hlength : n' - n = (n' - (n + 1)) + 1 := by omega
    rw [Tree.preorderAll, Tree.preorder, Tree.preorderAll, List.append_nil, List.map_cons,
      hkids.numbered, hindex, hlength, List.range'_succ]
  below := ⟨⟨hbelow, by rw [Tree.Edges]; exact hkids.below⟩, trivial⟩
  owned := by
    rw [Tree.preorderAll, Tree.preorder, Tree.preorderAll, List.append_nil]
    exact List.forall_mem_cons.mpr ⟨howned, hkids.owned⟩

end Grown

namespace Planner

variable {p : Planner}

section Fields

/-- The columns of a table so far belong to it, and trees have grown below it. -/
structure Grows (p : Planner) (parent : WrittenTable) (n n' : Nat)
    (result : List WrittenColumn × List WrittenTree) : Prop where
  columns : WrittenTable.ColumnsOf parent.table result.1
  grown : Grown p.schema parent n n' result.2

/-- A column of the table is added once. -/
theorem columnsOf_addWritten {table : Table} {columns : List WrittenColumn}
    (h : WrittenTable.ColumnsOf table columns) {column : Column} (hcolumn : column ∈ table.columns)
    (source : Option Path) : WrittenTable.ColumnsOf table (addWritten columns column source) := by
  unfold addWritten
  split
  · exact h
  · rename_i hnew
    refine ⟨List.forall_mem_append.mpr ⟨h.owned, List.forall_mem_singleton.mpr hcolumn⟩, ?_⟩
    rw [List.map_append, List.map_singleton, List.nodup_append]
    refine ⟨h.distinct, List.nodup_singleton _, fun id hid other hother heq => hnew ?_⟩
    obtain ⟨c, hc, rfl⟩ := List.mem_map.mp hid
    exact List.any_eq_true.mpr ⟨c, hc, beq_iff_eq.mpr (heq.trans (List.mem_singleton.mp hother))⟩

mutual

theorem writtenField_grows (hs : p.schema.Sound) (hkeyed : p.schema.Keyed) :
    ∀ (t : FieldTree) {parent : WrittenTable} {base : Path} {columns : List WrittenColumn}
      {n n' : Nat} {result : List WrittenColumn × List WrittenTree},
      parent.table ∈ p.schema.tables → WrittenTable.ColumnsOf parent.table columns →
      (p.writtenField parent.table parent.levels base columns t).run n = .ok (result, n') →
        p.Grows parent n n' result
  | .node field kids, parent, base, columns, n, n', result, htable, hcolumns, hrun => by
    cases enters_of_writtenField hrun with
    | passed => exact ⟨hcolumns, .nil _ _ _⟩
    | scalar _ hcolumn =>
      exact ⟨columnsOf_addWritten hcolumns (Resolver.mem_of_column hcolumn) _, .nil _ _ _⟩
    | embedded _ hbelow => exact writtenFields_grow hs hkeyed kids htable hcolumns hbelow
    | @table target link own below _ hshape hlink hbelow =>
      have htarget := Resolver.mem_of_shapeTable hshape
      let child : WrittenTable := ⟨n, target, some link, parent.levels ++ [base.join field.name], own⟩
      have hgrows : p.Grows child (n + 1) n' (own, below) :=
        writtenFields_grow hs hkeyed kids htarget (WrittenTable.columnsOf_nil _) hbelow
      exact ⟨hcolumns, hgrows.grown.node rfl
        ⟨⟨link, rfl, Resolver.link_between hs hkeyed htable htarget hlink⟩, _, rfl⟩ hgrows.columns⟩

theorem writtenFields_grow (hs : p.schema.Sound) (hkeyed : p.schema.Keyed) :
    ∀ (ts : List FieldTree) {parent : WrittenTable} {base : Path} {columns : List WrittenColumn}
      {n n' : Nat} {result : List WrittenColumn × List WrittenTree},
      parent.table ∈ p.schema.tables → WrittenTable.ColumnsOf parent.table columns →
      (p.writtenFields parent.table parent.levels base columns ts).run n = .ok (result, n') →
        p.Grows parent n n' result
  | [], parent, base, columns, n, n', result, htable, hcolumns, hrun => by
    rw [writtenFields, run_pure_ok] at hrun
    obtain ⟨rfl, rfl⟩ := hrun
    exact ⟨hcolumns, .nil _ _ _⟩
  | t :: ts, parent, base, columns, n, n', result, htable, hcolumns, hrun => by
    simp only [writtenFields, run_bind_ok, run_pure_ok] at hrun
    obtain ⟨⟨columns, first⟩, between, hfirst, ⟨all, others⟩, after, hothers, rfl, rfl⟩ := hrun
    have hhead := writtenField_grows hs hkeyed t htable hcolumns hfirst
    have htail := writtenFields_grow hs hkeyed ts htable hhead.columns hothers
    exact ⟨htail.columns, hhead.grown.append htail.grown⟩

end

end Fields

section Completed

variable {table : Table} {columns : List WrittenColumn} {ids : List ColumnId}

/-- A column that a table owns is found under its number. -/
theorem column?_of_owns (hs : p.schema.Sound) (htable : table ∈ p.schema.tables) {id : ColumnId}
    (hid : table.Owns id) :
    ∃ column ∈ table.columns, column.id = id ∧ p.schema.column? id = some column := by
  obtain ⟨column, hcolumn, rfl⟩ := hid
  refine ⟨column, hcolumn, rfl, ?_⟩
  obtain ⟨i, hi⟩ := List.mem_iff_getElem?.mp hcolumn
  rw [Schema.column?, (hs.laid table htable).numbered i column hi]
  show (p.schema.table? table.id).bind _ = _
  rw [hs.table?_id htable]
  exact hi

/-- Columns of a table that are added to others of it, none of which is lost. -/
structure Extended (table : Table) (columns columns' : List WrittenColumn) (ids : List ColumnId) :
    Prop where
  kept : columns ⊆ columns'
  owned : WrittenTable.ColumnsOf table columns → WrittenTable.ColumnsOf table columns'
  added : ∀ id ∈ ids, ∃ c ∈ columns', c.column.id = id

theorem Extended.trans {columns' columns'' : List WrittenColumn} {more : List ColumnId}
    (h : Extended table columns columns' ids) (h' : Extended table columns' columns'' more) :
    Extended table columns columns'' (ids ++ more) where
  kept := List.Subset.trans h.kept h'.kept
  owned := h'.owned ∘ h.owned
  added := List.forall_mem_append.mpr ⟨fun id hid =>
    (h.added id hid).imp fun _ hc => ⟨h'.kept hc.1, hc.2⟩, h'.added⟩

theorem addWritten_extended {column : Column} (hcolumn : column ∈ table.columns)
    (columns : List WrittenColumn) (source : Option Path) :
    Extended table columns (addWritten columns column source) [column.id] where
  kept := by
    unfold addWritten
    split
    · exact List.Subset.refl _
    · exact List.subset_append_left _ _
  owned howned := columnsOf_addWritten howned hcolumn source
  added := by
    intro id hid
    rw [List.mem_singleton.mp hid]
    unfold addWritten
    split
    · rename_i hthere
      obtain ⟨c, hc, hsame⟩ := List.any_eq_true.mp hthere
      exact ⟨c, hc, by simpa using hsame⟩
    · exact ⟨_, List.mem_append_right _ (List.mem_singleton.mpr rfl), rfl⟩

theorem addFilled_extended (hs : p.schema.Sound) (htable : table ∈ p.schema.tables)
    (hids : ∀ id ∈ ids, table.Owns id) (columns : List WrittenColumn) :
    Extended table columns (addFilled p.schema columns ids) ids := by
  induction ids generalizing columns with
  | nil => exact ⟨List.Subset.refl _, id, nofun⟩
  | cons id rest ih =>
    rw [List.forall_mem_cons] at hids
    obtain ⟨column, hcolumn, rfl, hfound⟩ := column?_of_owns hs htable hids.1
    rw [addFilled, List.foldl_cons, hfound]
    exact (addWritten_extended hcolumn columns none).trans (ih hids.2 _)

/-- The columns that a link gives to the table above it are columns of that table. -/
theorem owns_columnsAbove {parent child : WrittenTable}
    (h : WrittenTable.Below p.schema parent child) :
    ∀ id ∈ Link.columnsAbove child.link, parent.table.Owns id := by
  obtain ⟨link, hlink, hbetween⟩ := h.linked
  rw [hlink]
  intro id hid
  cases link with
  | parentHolds pairs =>
    obtain ⟨pair, hpair, rfl⟩ := List.mem_map.mp hid
    exact (hbetween pair hpair).1
  | childHolds pairs => cases hid
  | junction junction toParent toChild => cases hid

/-- The columns that a link gives to the table below it are columns of that table. -/
theorem owns_ownColumns {parent child : WrittenTable}
    (h : WrittenTable.Below p.schema parent child) :
    ∀ id ∈ Link.ownColumns child.link, child.table.Owns id := by
  obtain ⟨link, hlink, hbetween⟩ := h.linked
  rw [hlink]
  intro id hid
  cases link with
  | parentHolds pairs => cases hid
  | childHolds pairs =>
    obtain ⟨pair, hpair, rfl⟩ := List.mem_map.mp hid
    exact (hbetween pair hpair).2
  | junction junction toParent toChild => cases hid

theorem foldl_addFilled_extended (hs : p.schema.Sound) (htable : table ∈ p.schema.tables)
    {children : List WrittenTable}
    (hids : ∀ child ∈ children, ∀ id ∈ Link.columnsAbove child.link, table.Owns id)
    (columns : List WrittenColumn) : Extended table columns
      (children.foldl (fun columns child =>
        addFilled p.schema columns (Link.columnsAbove child.link)) columns)
      (children.flatMap fun child => Link.columnsAbove child.link) := by
  induction children generalizing columns with
  | nil => exact ⟨List.Subset.refl _, id, nofun⟩
  | cons child rest ih =>
    rw [List.forall_mem_cons] at hids
    rw [List.foldl_cons, List.flatMap_cons]
    exact (addFilled_extended hs htable hids.1 columns).trans (ih hids.2 _)

/-- Completing the columns of a table adds its key and the foreign keys that it holds. -/
theorem completeColumns_extended (hs : p.schema.Sound) {t : WrittenTable} {children : List WrittenTable}
    (htable : t.table ∈ p.schema.tables) (hown : ∀ id ∈ Link.ownColumns t.link, t.table.Owns id)
    (hbelow : ∀ child ∈ children, WrittenTable.Below p.schema t child) :
    Extended t.table t.columns (p.completeColumns t children)
      ((t.table.primaryKey ++ Link.ownColumns t.link) ++
        children.flatMap fun child => Link.columnsAbove child.link) := by
  have hkey := addFilled_extended hs htable
    (fun id hid => (hs.laid _ htable).owns_of_mem_primaryKey hid) t.columns
  exact (hkey.trans (addFilled_extended hs htable hown _)).trans
    (foldl_addFilled_extended hs htable
      (fun child hchild => owns_columnsAbove (hbelow child hchild)) _)

theorem label_completed (p : Planner) (t : WrittenTree) :
    ∃ columns, (p.completed t).label = { t.label with columns } := by
  obtain ⟨t, kids⟩ := t
  exact ⟨_, rfl⟩

mutual

/-- Completion changes nothing but columns. -/
theorem map_preorder_completed {β : Type} {f : WrittenTable → β}
    (hf : ∀ (t : WrittenTable) columns, f { t with columns } = f t) :
    ∀ t : WrittenTree, (p.completed t).preorder.map f = t.preorder.map f
  | .node t kids => by
    rw [completed, Tree.preorder, Tree.preorder, List.map_cons, List.map_cons, hf,
      map_preorderAll_completed hf kids]

theorem map_preorderAll_completed {β : Type} {f : WrittenTable → β}
    (hf : ∀ (t : WrittenTable) columns, f { t with columns } = f t) :
    ∀ ts : List WrittenTree,
      (Tree.preorderAll (p.completedAll ts)).map f = (Tree.preorderAll ts).map f
  | [] => rfl
  | t :: ts => by
    rw [completedAll, Tree.preorderAll, Tree.preorderAll, List.map_append, List.map_append,
      map_preorder_completed hf t, map_preorderAll_completed hf ts]

end

/-- What completion makes of linked tables. -/
structure Finished (s : Schema) (tree : WrittenTree) : Prop where
  edges : tree.Edges fun a b => WrittenTable.Below s a b ∧ WrittenTable.Refers a b
  complete : ∀ t ∈ tree.preorder, t.Complete

mutual

theorem completed_finished (hs : p.schema.Sound) : ∀ t : WrittenTree,
    t.Edges (WrittenTable.Below p.schema) →
    (∀ id ∈ Link.ownColumns t.label.link, t.label.table.Owns id) →
    (∀ w ∈ t.preorder, w.table ∈ p.schema.tables ∧ w.Owned) → Finished p.schema (p.completed t)
  | .node t kids, hedges, hown, hall => by
    rw [Tree.Edges] at hedges
    rw [Tree.preorder, List.forall_mem_cons] at hall
    have hbelowAll : ∀ child ∈ kids.map Tree.label, WrittenTable.Below p.schema t child :=
      List.forall_mem_map.mpr fun kid hkid => (Tree.edgesBelow_iff.mp hedges kid hkid).1
    have hextended := completeColumns_extended hs hall.1.1 hown hbelowAll
    have hbelow := completedAll_finished hs kids hedges hall.2
    rw [completed]
    refine ⟨?_, ?_⟩
    · rw [Tree.Edges]
      refine Tree.edgesBelow_iff.mpr fun kid' hkid' => ?_
      obtain ⟨kid, hkid, rfl⟩ := hbelow.1 kid' hkid'
      refine ⟨?_, (hbelow.2 _ hkid').edges⟩
      obtain ⟨columns, hlabel⟩ := p.label_completed kid
      obtain ⟨hlinked, hstep⟩ := (Tree.edgesBelow_iff.mp hedges kid hkid).1
      rw [hlabel]
      refine ⟨⟨hlinked, hstep⟩, fun id hid => hextended.added id ?_⟩
      exact List.mem_append_right _
        (List.mem_flatMap.mpr ⟨kid.label, List.mem_map_of_mem hkid, hid⟩)
    · rw [Tree.preorder, Tree.preorderAll_eq_flatMap]
      refine List.forall_mem_cons.mpr ⟨⟨hextended.owned hall.1.2, ?_, ?_⟩, ?_⟩
      · exact fun id hid =>
          hextended.added id (List.mem_append_left _ (List.mem_append_left _ hid))
      · exact fun id hid =>
          hextended.added id (List.mem_append_left _ (List.mem_append_right _ hid))
      · intro w hw
        obtain ⟨kid', hkid', hw⟩ := List.mem_flatMap.mp hw
        exact (hbelow.2 kid' hkid').complete w hw

theorem completedAll_finished (hs : p.schema.Sound) : ∀ (ts : List WrittenTree) {t : WrittenTable},
    Tree.EdgesBelow (WrittenTable.Below p.schema) t ts →
    (∀ w ∈ Tree.preorderAll ts, w.table ∈ p.schema.tables ∧ w.Owned) →
      (∀ kid' ∈ p.completedAll ts, ∃ kid ∈ ts, p.completed kid = kid') ∧
        ∀ kid' ∈ p.completedAll ts, Finished p.schema kid'
  | [], _, _, _ => ⟨nofun, nofun⟩
  | kid :: rest, t, hedges, hall => by
    rw [Tree.preorderAll, List.forall_mem_append] at hall
    obtain ⟨hsources, hfinished⟩ := completedAll_finished hs rest hedges.2 hall.2
    have hkid := completed_finished hs kid hedges.1.2 (owns_ownColumns hedges.1.1) hall.1
    rw [completedAll]
    refine ⟨List.forall_mem_cons.mpr ⟨⟨kid, List.mem_cons_self, rfl⟩, fun kid' hkid' => ?_⟩,
      List.forall_mem_cons.mpr ⟨hkid, hfinished⟩⟩
    obtain ⟨other, hother, rfl⟩ := hsources kid' hkid'
    exact ⟨other, List.mem_cons_of_mem _ hother, rfl⟩

end

end Completed

/-- The tree of the tables that an entity is written to: the target at the root, the others numbered
after it and linked to those above them, all with the columns that the links ask for. -/
structure Laid (p : Planner) (tree : WrittenTree) : Prop extends Finished p.schema tree where
  table : tree.label.table = p.table
  link : tree.label.link = none
  levels : tree.label.levels = []
  numbered : tree.preorder.map WrittenTable.index = List.range tree.preorder.length

/-- The target table has the first number. -/
theorem Laid.lookup_root {tree : WrittenTree} (h : p.Laid tree) : tree.label.lookup = "lookup0" := by
  have hnumbered := h.numbered
  obtain ⟨t, kids⟩ := tree
  rw [Tree.preorder, List.map_cons, List.length_cons, List.range_succ_eq_map] at hnumbered
  rw [WrittenTable.lookup, Tree.label, (List.cons.inj hnumbered).1]
  rfl

theorem writtenTree_laid (hs : p.schema.Sound) (hkeyed : p.schema.Keyed)
    (htable : p.table ∈ p.schema.tables) {entity : FieldTree} {tree : WrittenTree}
    (h : p.writtenTree entity = .ok tree) : p.Laid tree := by
  have hsound := writtenTree_sound hs htable h
  unfold writtenTree at h
  obtain ⟨⟨⟨columns, kids⟩, next⟩, hkids, h⟩ := except_bind_ok.mp h
  cases h
  let root : WrittenTable := ⟨0, p.table, none, [], columns⟩
  have hgrows : p.Grows root 1 next (columns, kids) :=
    writtenFields_grow hs hkeyed entity.children htable (WrittenTable.columnsOf_nil _) hkids
  have htables : ∀ w ∈ (Tree.node root kids).preorder, w.table ∈ p.schema.tables := by
    have hmap := map_preorder_completed (p := p) (f := WrittenTable.table) (fun _ _ => rfl)
      (.node root kids)
    intro w hw
    obtain ⟨w', hw', hsame⟩ := List.mem_map.mp (hmap ▸ List.mem_map_of_mem hw)
    rw [← hsame]
    exact (hsound w' hw').table
  refine ⟨?_, rfl, rfl, rfl, ?_⟩
  · refine completed_finished hs (.node root kids) (by rw [Tree.Edges]; exact hgrows.grown.below) nofun
      fun w hw => ⟨htables w hw, ?_⟩
    rw [Tree.preorder] at hw
    rcases List.mem_cons.mp hw with rfl | hmem
    · exact hgrows.columns
    · exact hgrows.grown.owned w hmem
  · have hindexes := map_preorder_completed (p := p) (f := WrittenTable.index) (fun _ _ => rfl)
      (.node root kids)
    have hlength := congrArg List.length hindexes
    rw [List.length_map, List.length_map] at hlength
    have hbelow := congrArg List.length hgrows.grown.numbered
    rw [List.length_map, List.length_range'] at hbelow
    rw [hindexes, hlength, Tree.preorder, List.map_cons, hgrows.grown.numbered, List.length_cons,
      List.range_eq_range', List.range'_succ, hbelow]

end Planner

end ShapeSql
