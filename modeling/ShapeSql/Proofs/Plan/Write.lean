import ShapeSql.Proofs.Plan.Select
import ShapeSql.Proofs.Schema.Declaration

namespace ShapeSql

open Sql Planning

section Collected

variable {β : Type} {g : Collector Unit β} [g.Plain] {x : β}

namespace WrittenTable

@[simp] theorem collect_withOwner (t parent : WrittenTable) :
    sourceCollect g () (some (t.withOwner parent)) =
      g.tableVar t.lookup ++ g.tableVar parent.lookup := by
  simp [withOwner, Source.collect_join]

theorem collect_writeBack (t : WrittenTable) :
    t.writeBack.collect g () = g.tableVar t.lookup ++ g.tableVar t.output := by
  rw [writeBack, Statement.collect, Update.collect,
    collect_columnAssignments Column.name (fun c => ("o", c.name))]
  simp [Source.collect_join]

theorem collect_copyKeys (s : Schema) (t other : WrittenTable)
    (columns : List (ColumnId × ColumnId)) (own others : String) :
    (t.copyKeys s other columns own others).collect g () =
      g.tableVar t.lookup ++ g.tableVar other.lookup := by
  rw [copyKeys, Statement.collect, Update.collect,
    collect_columnAssignments (fun pair : ColumnId × ColumnId => s.columnName pair.1)
      (fun pair => ("o", s.columnName pair.2))]
  simp [Source.collect_join]

/-- The rows that exist are updated where there are columns to assign. -/
theorem updateRows_inv {t : WrittenTable} {st : Statement} (h : t.updateRows = some st) :
    t.updateColumns ≠ [] ∧ st = .update {
      target := "target"
      assignments := t.updateColumns.map fun c => .set c.name (.columnOf "source" c.name)
      source := some ((Source.of (.table t.table.name (some "target"))).join .inner
        (.tableVar t.lookup (some "source"))
        (Planner.keyEq "target" "source" t.table.keyColumns))
      filter := none } := by
  simp only [updateRows] at h
  split at h
  · cases h
  · rename_i hcolumns
    cases h
    exact ⟨fun hnone => hcolumns (List.isEmpty_iff.mpr hnone), rfl⟩

theorem collect_updateRows {t : WrittenTable} {st : Statement} (h : t.updateRows = some st) :
    st.collect g () = g.tableVar t.lookup := by
  obtain ⟨_, rfl⟩ := updateRows_inv h
  rw [Statement.collect, Update.collect,
    collect_columnAssignments Column.name (fun c => ("source", c.name))]
  simp [Source.collect_join]

/-- A merge reads the rows of its table, and captures keys if the table has any. -/
theorem mem_collect_mergeRows {t : WrittenTable} {upsert : Bool}
    (h : x ∈ (t.mergeRows upsert).collect g ()) :
    x ∈ g.tableVar t.lookup ∨ (t.table.hasKey = true ∧ x ∈ g.tableVar t.output) := by
  have hcondition : (if upsert && !t.table.keyColumns.isEmpty then
      Planner.keyEq "target" "source" t.table.keyColumns else .contradiction).collect g () = [] := by
    split
    · exact Planner.collect_keyEq _ _ _
    · exact Expr.collect_contradiction
  have hvalues : exprsCollect g () (t.insertColumns.map fun c => Expr.columnOf "source" c.name) = [] :=
    exprsCollect_map (fun _ => by simp) _
  have hkeys : exprsCollect g () (t.table.keyColumns.map fun c => Expr.inserted c.name) = [] :=
    exprsCollect_map (fun _ => by simp) _
  simp only [mergeRows, Statement.collect, Merge.collect, Collector.inside_unit, hcondition, Factor.collect,
    MergeInsert.collect, Option.elim_some, hvalues, List.flatMap_nil, List.nil_append] at h
  rcases List.mem_append.mp h with hlookup | houtput
  · exact Or.inl hlookup
  · split at houtput
    · cases houtput
    · rename_i hnonempty
      refine Or.inr ⟨Table.hasKey_of_keyColumns hnonempty, ?_⟩
      simpa [OutputInto.collect, hkeys] using houtput

end WrittenTable

namespace Planner

theorem mem_collect_insertJunction (p : Planner) {t parent : WrittenTable} {junction : Table}
    {toParent toChild : List JoinPair} {upsert : Bool}
    (h : x ∈ (p.insertJunction t parent junction toParent toChild upsert).collect g ()) :
    x ∈ g.ordering [] ∨ x ∈ g.tableVar t.lookup ∨ x ∈ g.tableVar parent.lookup := by
  have hpairs : x ∈ (toChild.foldl (fun query pair =>
      query.project (.columnOf "l" (p.schema.columnName pair.child)) none)
      (toParent.foldl (fun query pair =>
        query.project (.columnOf "p" (p.schema.columnName pair.parent)) none)
        (Query.reading (t.withOwner parent)))).collect g () →
      x ∈ g.ordering [] ∨ x ∈ g.tableVar t.lookup ∨ x ∈ g.tableVar parent.lookup := by
    intro hmem
    rw [Query.mem_collect_projectAll _ (fun _ _ => by simp),
      Query.mem_collect_projectAll _ (fun _ _ => by simp), Query.collect_reading,
      WrittenTable.collect_withOwner, List.mem_append, List.mem_append] at hmem
    exact hmem
  rw [insertJunction, Statement.collect, InsertTarget.collect, InsertSource.collect,
    List.nil_append] at h
  split at h
  · rcases (Query.mem_collect_restrict _ _).mp h with hold | hnew
    · exact hpairs hold
    · have hnone := mem_collect_probed (collect_pairsEq _ _ _ _) (collect_pairsEq _ _ _ _) hnew
      exact Or.inl (by simpa using hnone)
  · exact hpairs h

end Planner

end Collected

namespace Planner

variable {d d' : Draft}

/-- Keys are copied from the owner of a table that holds a key to it, and from the tables below that
the table holds a key to. -/
theorem copiedKeys_cases (p : Planner) {v : Tree.Visit WrittenTable} {st : Statement}
    (h : st ∈ p.copiedKeys v) :
    (∃ parent pairs, v.parent? = some parent ∧ v.label.link = some (.childHolds pairs) ∧
      st = v.label.copyKeys p.schema parent (pairs.map fun pair => (pair.child, pair.parent))
        parentColumn indexColumn) ∨
    ∃ child pairs, child ∈ v.children ∧ child.link = some (.parentHolds pairs) ∧
      st = v.label.copyKeys p.schema child (pairs.map fun pair => (pair.parent, pair.child))
        indexColumn parentColumn := by
  unfold copiedKeys at h
  rcases List.mem_append.mp h with hown | hbelow
  · split at hown
    · exact Or.inl ⟨_, _, ‹_›, ‹_›, List.mem_singleton.mp hown⟩
    · cases hown
  · obtain ⟨child, hchild, hcopied⟩ := List.mem_filterMap.mp hbelow
    split at hcopied
    · exact Or.inr ⟨child, _, hchild, ‹_›, (Option.some.inj hcopied).symm⟩
    · cases hcopied

/-- Whatever the copied keys are, they are copied into the rows of the table visited. -/
theorem copyKeys_of_copiedKeys (p : Planner) {v : Tree.Visit WrittenTable} {st : Statement}
    (h : st ∈ p.copiedKeys v) : ∃ other columns own others,
      st = v.label.copyKeys p.schema other columns own others := by
  rcases p.copiedKeys_cases h with ⟨_, _, _, _, rfl⟩ | ⟨_, _, _, _, rfl⟩
  · exact ⟨_, _, _, _, rfl⟩
  · exact ⟨_, _, _, _, rfl⟩

/-- A table is written by copying keys, merging its rows, writing keys back where it has any, updating
rows, and pairing rows in a junction. -/
theorem writeTable_cases (p : Planner) {upsert : Bool} {v : Tree.Visit WrittenTable}
    {st : Statement} (h : st ∈ p.writeTable upsert v) :
    st ∈ p.copiedKeys v ∨ st = v.label.mergeRows upsert ∨
      (v.label.table.hasKey = true ∧ st = v.label.writeBack) ∨ v.label.updateRows = some st ∨
      ∃ parent junction toParent toChild, v.parent? = some parent ∧
        v.label.link = some (.junction junction toParent toChild) ∧
        st = p.insertJunction v.label parent (p.schema.table junction) toParent toChild upsert := by
  unfold writeTable at h
  rcases List.mem_append.mp h with hwritten | hpaired
  · rcases List.mem_append.mp hwritten with hcopied | hrest
    · exact Or.inl hcopied
    · rcases List.mem_cons.mp hrest with rfl | hkeyed
      · exact Or.inr (Or.inl rfl)
      · split at hkeyed
        · rename_i hkey
          rcases List.mem_cons.mp hkeyed with rfl | hupdate
          · exact Or.inr (Or.inr (Or.inl ⟨hkey, rfl⟩))
          · split at hupdate
            · exact Or.inr (Or.inr (Or.inr (Or.inl (Option.mem_toList.mp hupdate))))
            · cases hupdate
        · cases hkeyed
  · split at hpaired
    · exact Or.inr (Or.inr (Or.inr (Or.inr
        ⟨_, _, _, _, ‹_›, ‹_›, List.mem_singleton.mp hpaired⟩)))
    · cases hpaired

section Collected

variable {β : Type} {g : Collector Unit β} [g.Plain] {x : β}

theorem mem_collect_copiedKeys {p : Planner} {v : Tree.Visit WrittenTable} {st : Statement}
    (hst : st ∈ p.copiedKeys v) (h : x ∈ st.collect g ()) :
    x ∈ g.tableVar v.label.lookup ∨
      ∃ other, (v.parent? = some other ∨ other ∈ v.children) ∧ x ∈ g.tableVar other.lookup := by
  rcases p.copiedKeys_cases hst with ⟨parent, pairs, hparent, _, rfl⟩ | ⟨child, pairs, hchild, _, rfl⟩
  · rw [WrittenTable.collect_copyKeys] at h
    exact (List.mem_append.mp h).imp_right fun hx => ⟨parent, Or.inl hparent, hx⟩
  · rw [WrittenTable.collect_copyKeys] at h
    exact (List.mem_append.mp h).imp_right fun hx => ⟨child, Or.inr hchild, hx⟩

/-- What writes a table has what its own variables and the rows of the tables around it have. -/
theorem mem_collect_writeTable {p : Planner} {upsert : Bool} {v : Tree.Visit WrittenTable}
    {st : Statement} (hst : st ∈ p.writeTable upsert v) (h : x ∈ st.collect g ()) :
    x ∈ g.ordering [] ∨
      (x ∈ g.tableVar v.label.lookup ∨
        (v.label.table.hasKey = true ∧ x ∈ g.tableVar v.label.output)) ∨
      ∃ other, (v.parent? = some other ∨ other ∈ v.children) ∧ x ∈ g.tableVar other.lookup := by
  rcases p.writeTable_cases hst with hcopied | rfl | ⟨hkey, rfl⟩ | hupdate |
    ⟨parent, junction, toParent, toChild, hparent, _, rfl⟩
  · exact Or.inr ((mem_collect_copiedKeys hcopied h).imp_left Or.inl)
  · exact Or.inr (Or.inl (WrittenTable.mem_collect_mergeRows h))
  · rw [WrittenTable.collect_writeBack] at h
    exact Or.inr (Or.inl ((List.mem_append.mp h).imp_right fun hx => ⟨hkey, hx⟩))
  · rw [WrittenTable.collect_updateRows hupdate] at h
    exact Or.inr (Or.inl (Or.inl h))
  · rcases p.mem_collect_insertJunction h with hordering | hown | howner
    · exact Or.inl hordering
    · exact Or.inr (Or.inl (Or.inl hown))
    · exact Or.inr (Or.inr ⟨parent, Or.inl hparent, howner⟩)

end Collected

theorem leaves_writeTable (p : Planner) (upsert : Bool) (v : Tree.Visit WrittenTable)
    {st : Statement} (h : st ∈ p.writeTable upsert v) : st.collect .leaves () = [] := by
  apply List.eq_nil_iff_forall_not_mem.mpr
  intro l hl
  simpa using mem_collect_writeTable h hl

/-- Stale rows are those of a table with a key that holds a key to its owner, or the pairs of a
junction. -/
theorem removeStale_cases (p : Planner) {v : Tree.Visit WrittenTable} {st : Statement}
    (h : st ∈ p.removeStale v) :
    (∃ parent pairs, v.parent? = some parent ∧ v.label.link = some (.childHolds pairs) ∧
      st = .delete (.table v.label.table.name (some "t")) (some (.and
        (.exists ((probe (.of (.tableVar parent.lookup (some "p")))).restrict
          (p.pairsEq "p" "t" pairs)) false)
        (.exists ((probe (.of (.tableVar v.label.lookup (some "l")))).restrict
          (keyEq "l" "t" v.label.table.keyColumns)) true)))) ∨
    ∃ parent junction toParent toChild, v.parent? = some parent ∧
      v.label.link = some (.junction junction toParent toChild) ∧
      st = .delete (.table (p.schema.table junction).name (some "j")) (some (.and
        (.exists ((probe (.of (.tableVar parent.lookup (some "p")))).restrict
          (p.pairsEq "p" "j" toParent)) false)
        (.exists (((probe (v.label.withOwner parent)).restrict
          (p.pairsEq "p" "j" toParent)).restrict (p.pairsEq "j" "l" toChild)) true))) := by
  unfold removeStale at h
  split at h
  · split at h
    · exact Or.inl ⟨_, _, ‹_›, ‹_›, List.mem_singleton.mp h⟩
    · cases h
  · exact Or.inr ⟨_, _, _, _, ‹_›, ‹_›, List.mem_singleton.mp h⟩
  · cases h

/-- Whatever the stale rows are, they are deleted under a condition. -/
theorem delete_of_removeStale (p : Planner) {v : Tree.Visit WrittenTable} {st : Statement}
    (h : st ∈ p.removeStale v) : ∃ target condition, st = .delete target (some condition) := by
  rcases p.removeStale_cases h with ⟨_, _, _, _, rfl⟩ | ⟨_, _, _, _, _, _, rfl⟩
  · exact ⟨_, _, rfl⟩
  · exact ⟨_, _, rfl⟩

section Collected

variable {β : Type} {g : Collector Unit β} [g.Plain] {x : β}

theorem mem_collect_removeStale {p : Planner} {v : Tree.Visit WrittenTable} {st : Statement}
    (hst : st ∈ p.removeStale v) (h : x ∈ st.collect g ()) :
    x ∈ g.ordering [] ∨ x ∈ g.tableVar v.label.lookup ∨
      ∃ parent, v.parent? = some parent ∧ x ∈ g.tableVar parent.lookup := by
  have howned : ∀ {parent : WrittenTable} {tie : Expr}, v.parent? = some parent →
      tie.collect g () = [] → x ∈ (Expr.exists ((probe (.of (.tableVar parent.lookup
        (some "p")))).restrict tie) false).collect g () →
      x ∈ g.ordering [] ∨ x ∈ g.tableVar v.label.lookup ∨
        ∃ parent, v.parent? = some parent ∧ x ∈ g.tableVar parent.lookup := by
    intro parent tie hparent htie hmem
    rcases mem_collect_tied htie hmem with hordering | hsource
    · exact Or.inl hordering
    · exact Or.inr (Or.inr ⟨parent, hparent, by simpa using hsource⟩)
  rcases p.removeStale_cases hst with
    ⟨parent, pairs, hparent, _, rfl⟩ | ⟨parent, junction, toParent, toChild, hparent, _, rfl⟩
  · rw [Statement.collect, Factor.collect, List.nil_append, optionalCollect, Expr.collect_and,
      List.mem_append] at h
    rcases h with h | h
    · exact howned hparent (collect_pairsEq _ _ _ _) h
    · rcases mem_collect_tied (collect_keyEq _ _ _) h with hordering | hsource
      · exact Or.inl hordering
      · exact Or.inr (Or.inl (by simpa using hsource))
  · rw [Statement.collect, Factor.collect, List.nil_append, optionalCollect, Expr.collect_and,
      List.mem_append] at h
    rcases h with h | h
    · exact howned hparent (collect_pairsEq _ _ _ _) h
    · rcases mem_collect_probed (collect_pairsEq _ _ _ _) (collect_pairsEq _ _ _ _) h with
        hordering | hsource
      · exact Or.inl hordering
      · rw [WrittenTable.collect_withOwner] at hsource
        exact Or.inr ((List.mem_append.mp hsource).imp_right fun hx => ⟨parent, hparent, hx⟩)

/-- The select of written rows reads the rows of the target, sorted as they came. -/
theorem mem_collect_returning (p : Planner) {output : FieldTree} {query : Query}
    {relations : Relations} (h : p.returning output = .ok (query, relations))
    (hx : x ∈ query.collect g ()) :
    x ∈ g.ordering query.orderBy ∨ x ∈ g.ordering [] ∨ x ∈ g.tableVar "lookup0" := by
  unfold returning at h
  obtain ⟨found, _, hpure⟩ := except_bind_ok.mp h
  cases hpure
  rcases Query.mem_collect_ordered _ _ hx with hordering | hquery | horder
  · exact Or.inl hordering
  · rw [mem_collect_projectAll, Query.collect_reading, List.mem_append, collect_joinAll,
      Source.collect_join] at hquery
    exact Or.inr (by simpa using hquery)
  · simp at horder

end Collected

theorem leaves_removeStale (p : Planner) (v : Tree.Visit WrittenTable) {st : Statement}
    (h : st ∈ p.removeStale v) : st.collect .leaves () = [] := by
  apply List.eq_nil_iff_forall_not_mem.mpr
  intro l hl
  simpa using mem_collect_removeStale h hl

theorem leaves_returning (p : Planner) {output : FieldTree} {query : Query} {relations : Relations}
    (h : p.returning output = .ok (query, relations)) : query.collect .leaves () = [] := by
  apply List.eq_nil_iff_forall_not_mem.mpr
  intro l hl
  simpa using p.mem_collect_returning h hl

/-- Rows under a base whose derived names are set aside. -/
theorem admits_derivedRows {base : String} (entity : Path) (levels : List Path)
    (columns : List RowColumn) (required : Bool)
    (hderived : ∀ derived, Names.derives (lowerAscii base) (lowerAscii derived) = true →
      d.SetAside derived) :
    Admits d entity (.rows ⟨.derived base, levels, columns, required⟩) where
  leaves := nofun
  aside := by
    rintro name ⟨row, column, rfl⟩
    exact hderived _ (Names.derives_cellName base row column)
  declared := nofun
  fits := trivial

/-- The rows of a table go into its variable through one hole, under a base of their own. -/
theorem fillLookup_inv {t : WrittenTable} {entity : Path} {st : Statement}
    (hrun : (fillLookup t entity).run d = .ok (st, d')) :
    ∃ base between, (baseName s!"n{t.index}").run d = .ok (base, between) ∧
      ∃ hole, (rule entity (.rows ⟨.derived base, t.levels,
          RowColumn.index :: ((if t.link.isSome then [.parentIndex] else []) ++
            t.columns.map fun c => match c.source with
              | some source => .field source
              | none => .null),
          !t.link.isSome⟩)).run between = .ok (hole, d') ∧
        st = .insert (.tableVar t.lookup)
          (indexColumn :: ((if t.link.isSome then [parentColumn] else []) ++
            t.columns.map fun c => c.column.name))
          (.hole hole) := by
  simp only [fillLookup, run_bind_ok, run_pure_ok] at hrun
  obtain ⟨base, between, hbase, hole, after, hhole, rfl, rfl⟩ := hrun
  exact ⟨base, between, hbase, hole, hhole, rfl⟩

theorem fillLookup_extends {t : WrittenTable} {entity : Path} {st : Statement} (hd : d.Sound)
    (hrun : (fillLookup t entity).run d = .ok (st, d')) :
    d.Extends [] d' ∧ d'.Fills (st.collect .leaves ()) := by
  obtain ⟨base, between, hbase, hole, hhole, rfl⟩ := fillLookup_inv hrun
  obtain ⟨hext, _, hderived⟩ := baseName_extends hd hbase
  obtain ⟨hrule, hfilled⟩ :=
    rule_extends hext.sound (admits_derivedRows entity _ _ _ hderived) hhole
  refine ⟨hext.trans hrule, ?_⟩
  intro l hl
  rw [List.mem_singleton.mp hl]
  exact hfilled

/-- A name for each of the bases, all of them set aside. -/
theorem singleNames_extends {α : Type} {base : α → String} {items : List α} {names : List String}
    (hd : d.Sound) (hrun : (items.mapM fun a => singleName (base a)).run d = .ok (names, d')) :
    d.Extends [] d' ∧ names.length = items.length ∧ ∀ name ∈ names, d'.SetAside name := by
  induction items generalizing d names with
  | nil =>
    rw [List.mapM_nil, run_pure_ok] at hrun
    obtain ⟨rfl, rfl⟩ := hrun
    exact ⟨.refl hd, rfl, nofun⟩
  | cons a items ih =>
    rw [List.mapM_cons] at hrun
    simp only [run_bind_ok, run_pure_ok] at hrun
    obtain ⟨name, between, hname, others, after, hothers, rfl, rfl⟩ := hrun
    obtain ⟨hhead, haside⟩ := singleName_extends hd hname
    obtain ⟨htail, hlength, hrest⟩ := ih hhead.sound hothers
    refine ⟨hhead.trans htail, by simp [hlength], ?_⟩
    intro other hother
    rcases List.mem_cons.mp hother with rfl | hmem
    · exact htail.aside _ haside
    · exact hrest other hmem

/-- A row takes a name for each of its fields, or derives its names from one base. -/
theorem rowNames_cases {t : WrittenTable} {entity : Path} {single : Bool} {fields : List Path}
    {names : RowNames} (hrun : (rowNames t entity single fields).run d = .ok (names, d')) :
    (∃ listed, (fields.mapM fun field => singleName (entity.concat field).paramName).run d =
        .ok (listed, d') ∧ names = .fields listed) ∨
      ∃ base, (baseName s!"n{t.index}").run d = .ok (base, d') ∧ names = .derived base := by
  unfold rowNames at hrun
  split at hrun
  · simp only [run_bind_ok, run_pure_ok] at hrun
    obtain ⟨listed, between, hlisted, rfl, rfl⟩ := hrun
    exact Or.inl ⟨listed, hlisted, rfl⟩
  · simp only [run_bind_ok, run_pure_ok] at hrun
    obtain ⟨base, between, hbase, rfl, rfl⟩ := hrun
    exact Or.inr ⟨base, hbase, rfl⟩

/-- The names of a row are set aside, one for each field of a single entity. -/
theorem rowNames_extends {t : WrittenTable} {entity : Path} {single : Bool} {fields : List Path}
    {names : RowNames} (hd : d.Sound)
    (hrun : (rowNames t entity single fields).run d = .ok (names, d')) :
    d.Extends [] d' ∧
      ∀ required, Admits d' entity (.rows ⟨names, [], fields.map .field, required⟩) := by
  rcases rowNames_cases hrun with ⟨names, hnames, rfl⟩ | ⟨base, hbase, rfl⟩
  · obtain ⟨hext, hlength, haside⟩ := singleNames_extends hd hnames
    refine ⟨hext, fun required => ⟨List.forall_mem_nil _, haside, ?_, ?_⟩⟩
    · intro name hparam
      cases hparam
    · show (fields.map RowColumn.field).length ≤ names.length
      rw [List.length_map]
      omega
  · obtain ⟨hext, _, hderived⟩ := baseName_extends hd hbase
    exact ⟨hext, fun required => admits_derivedRows entity _ _ required hderived⟩

/-- A plain insert has one hole for its rows: those of the columns that have a source and do not number
themselves. -/
theorem plainInsert_inv {t : WrittenTable} {entity : Path} {single : Bool} {batch : Batch}
    (hrun : (plainInsert t entity single).run d = .ok (batch, d')) :
    let supplied := t.columns.filter fun c => c.source.isSome && !c.column.autoIncrement
    let fields := supplied.filterMap WrittenColumn.source
    ∃ names between, (rowNames t entity single fields).run d = .ok (names, between) ∧
      ∃ hole, (rule entity (.rows ⟨names, [], fields.map .field, true⟩)).run between =
          .ok (hole, d') ∧
        batch = [.insert (.table t.table.name) (supplied.map fun c => c.column.name)
          (.hole hole)] := by
  simp only [plainInsert, run_bind_ok, run_pure_ok] at hrun
  obtain ⟨names, between, hnames, hole, after, hhole, rfl, rfl⟩ := hrun
  exact ⟨names, between, hnames, hole, hhole, rfl⟩

theorem plainInsert_extends {t : WrittenTable} {entity : Path} {single : Bool} {batch : Batch}
    (hd : d.Sound) (hrun : (plainInsert t entity single).run d = .ok (batch, d')) :
    d.Extends [] d' ∧ d'.Fills (Batch.leaves batch) := by
  obtain ⟨names, between, hnames, hole, hhole, rfl⟩ := plainInsert_inv hrun
  obtain ⟨hext, hadmits⟩ := rowNames_extends hd hnames
  obtain ⟨hrule, hfilled⟩ := rule_extends hext.sound (hadmits true) hhole
  refine ⟨hext.trans hrule, ?_⟩
  intro l hl
  rw [Batch.leaves, List.flatMap_singleton] at hl
  rw [List.mem_singleton.mp hl]
  exact hfilled

/-- The statements of a write that are the same for all arguments; the relations are those that the
written rows are selected back through. -/
inductive WrittenBy (p : Planner) (tree : WrittenTree) (relations : Option Relations) :
    Statement → Prop where
  | lookup {t : WrittenTable} : t ∈ tree.preorder → WrittenBy p tree relations t.declareLookup
  | output {t : WrittenTable} : t ∈ tree.preorder → WrittenBy p tree relations t.declareOutput
  | table {upsert : Bool} {v : Tree.Visit WrittenTable} {st : Statement} :
    v ∈ writeOrder [] tree → st ∈ p.writeTable upsert v → WrittenBy p tree relations st
  | stale {v : Tree.Visit WrittenTable} {st : Statement} :
    v ∈ tree.visits → st ∈ p.removeStale v → WrittenBy p tree relations st
  | returned {output : FieldTree} {query : Query} {found : Relations} :
    p.returning output = .ok (query, found) → relations = some found →
      WrittenBy p tree relations (.query query)

theorem WrittenBy.leaves_eq_nil {p : Planner} {tree : WrittenTree} {relations : Option Relations}
    {st : Statement} (h : p.WrittenBy tree relations st) : st.collect .leaves () = [] := by
  cases h with
  | lookup _ | output _ => rfl
  | table _ hst => exact p.leaves_writeTable _ _ hst
  | stale _ hst => exact p.leaves_removeStale _ hst
  | returned hquery _ => exact p.leaves_returning hquery

/-- The variables of all tables. -/
def declarations (tree : WrittenTree) : Batch :=
  tree.preorder.flatMap fun t =>
    t.declareLookup :: (if t.table.hasKey then [t.declareOutput] else [])

/-- What writes the tables, one after the other. -/
def writes (p : Planner) (tree : WrittenTree) : Batch :=
  (writeOrder [] tree).flatMap (p.writeTable (p.operation ≠ .insert))

/-- What a sync removes. -/
def removals (p : Planner) (tree : WrittenTree) : Batch :=
  if p.operation = .sync then (tree.visits.drop 1).reverse.flatMap p.removeStale else []

/-- The written rows are not selected back, or by one query at the end. -/
def Returned (p : Planner) (returned : Batch) (relations : Option Relations) : Prop :=
  (returned = [] ∧ relations = none) ∨ ∃ output query found,
    p.returning output = .ok (query, found) ∧ returned = [.query query] ∧ relations = some found

/-- One plain insert is enough: a single table is inserted into, and no row is asked for. -/
def WritesPlainly (p : Planner) (tree : WrittenTree) : Prop :=
  p.operation = .insert ∧ tree.size = 1 ∧ p.returnsRows = false

instance (p : Planner) (tree : WrittenTree) : Decidable (p.WritesPlainly tree) :=
  inferInstanceAs (Decidable (_ ∧ _))

/-- A write is one plain insert where that is enough, else it declares, fills, writes, removes and
returns. -/
theorem write_plan (p : Planner) {batch : Batch} {relations : Option Relations}
    (hrun : p.write.run d = .ok ((batch, relations), d')) :
    ∃ entity tree, p.entity = .ok entity ∧ p.writtenTree entity = .ok tree ∧
      ((p.WritesPlainly tree ∧
        (plainInsert tree.label entity.label.path !entity.label.isList).run d = .ok (batch, d')) ∨
      ∃ filled returned, ¬p.WritesPlainly tree ∧
        (tree.preorder.mapM fun t => fillLookup t entity.label.path).run d = .ok (filled, d') ∧
        p.Returned returned relations ∧
        batch = declarations tree ++ filled ++ p.writes tree ++ p.removals tree ++ returned) := by
  simp only [write, run_bind_ok, run_lift_ok] at hrun
  obtain ⟨entity, _, ⟨hentity, rfl⟩, tree, _, ⟨htree, rfl⟩, hrest⟩ := hrun
  refine ⟨entity, tree, hentity, htree, ?_⟩
  split at hrest
  · rename_i hplainly
    rw [Bool.not_eq_true'] at hplainly
    simp only [run_bind_ok, run_pure_ok, Prod.mk.injEq] at hrest
    obtain ⟨plain, between, hplain, ⟨rfl, rfl⟩, rfl⟩ := hrest
    exact Or.inl ⟨hplainly, hplain⟩
  · rename_i hplainly
    rw [Bool.not_eq_true'] at hplainly
    right
    split at hrest
    · simp only [run_bind_ok, run_throw_ok, false_and, exists_false] at hrest
    · simp only [run_bind_ok] at hrest
      obtain ⟨filled, between, hfilled, hlast⟩ := hrest
      split at hlast
      · split at hlast
        · rw [run_throw_ok] at hlast
          exact hlast.elim
        · simp only [run_bind_ok, run_lift_ok, run_pure_ok, Prod.mk.injEq] at hlast
          obtain ⟨⟨query, found⟩, _, ⟨hreturning, rfl⟩, ⟨rfl, rfl⟩, rfl⟩ := hlast
          exact ⟨filled, _, hplainly, hfilled, Or.inr ⟨_, query, found, hreturning, rfl, rfl⟩, rfl⟩
      · simp only [run_pure_ok, Prod.mk.injEq] at hlast
        obtain ⟨⟨rfl, rfl⟩, rfl⟩ := hlast
        refine ⟨filled, [], hplainly, hfilled, Or.inl ⟨rfl, rfl⟩, ?_⟩
        rw [List.append_nil]
        rfl

/-- A write is one plain insert, or declares, fills, writes, removes and returns. -/
theorem write_batch (p : Planner) {batch : Batch} {relations : Option Relations}
    (hrun : p.write.run d = .ok ((batch, relations), d')) :
    ∃ entity tree, p.entity = .ok entity ∧ p.writtenTree entity = .ok tree ∧
      ((tree.size = 1 ∧
        (plainInsert tree.label entity.label.path !entity.label.isList).run d = .ok (batch, d')) ∨
      ∃ filled returned,
        (tree.preorder.mapM fun t => fillLookup t entity.label.path).run d = .ok (filled, d') ∧
        p.Returned returned relations ∧
        batch = declarations tree ++ filled ++ p.writes tree ++ p.removals tree ++ returned) := by
  obtain ⟨entity, tree, hentity, htree, ⟨hplainly, hplain⟩ | ⟨filled, returned, _, hwritten⟩⟩ :=
    p.write_plan hrun
  · exact ⟨entity, tree, hentity, htree, Or.inl ⟨hplainly.2.1, hplain⟩⟩
  · exact ⟨entity, tree, hentity, htree, Or.inr ⟨filled, returned, hwritten⟩⟩

/-- A write that returns its rows ends in the query that selects them back. -/
theorem write_returns (p : Planner) (hreturns : p.returnsRows = true) {output : FieldTree}
    (houtput : p.output = some output) {batch : Batch} {relations : Option Relations}
    (hrun : p.write.run d = .ok ((batch, relations), d')) :
    ∃ before query found, p.returning output = .ok (query, found) ∧
      batch = before ++ [.query query] ∧ relations = some found := by
  simp only [write, run_bind_ok, run_lift_ok] at hrun
  obtain ⟨entity, _, ⟨_, rfl⟩, tree, _, ⟨_, rfl⟩, hrest⟩ := hrun
  split at hrest
  · rename_i hplainly
    rw [hreturns] at hplainly
    exact absurd hplainly.2.2 Bool.false_ne_true
  · split at hrest
    · simp only [run_bind_ok, run_throw_ok, false_and, exists_false] at hrest
    · simp only [run_bind_ok, houtput, run_lift_ok, run_pure_ok, Prod.mk.injEq] at hrest
      obtain ⟨filled, _, _, ⟨query, found⟩, _, ⟨hreturning, rfl⟩, ⟨rfl, rfl⟩, rfl⟩ := hrest
      exact ⟨_, query, found, hreturning, rfl, rfl⟩

/-- What a write consists of fills a variable, or is the same for all arguments. -/
theorem writtenBy_of_mem {p : Planner} {tree : WrittenTree} {filled returned : Batch}
    {relations : Option Relations} (hreturned : p.Returned returned relations) {st : Statement}
    (h : st ∈ declarations tree ++ filled ++ p.writes tree ++ p.removals tree ++ returned) :
    st ∈ filled ∨ p.WrittenBy tree relations st := by
  simp only [List.mem_append] at h
  rcases h with (((hst | hst) | hst) | hst) | hst
  · obtain ⟨t, ht, hst⟩ := List.mem_flatMap.mp hst
    rcases List.mem_cons.mp hst with rfl | hst
    · exact Or.inr (.lookup ht)
    · split at hst
      · rw [List.mem_singleton.mp hst]
        exact Or.inr (.output ht)
      · cases hst
  · exact Or.inl hst
  · obtain ⟨v, hv, hst⟩ := List.mem_flatMap.mp hst
    exact Or.inr (.table hv hst)
  · unfold removals at hst
    split at hst
    · obtain ⟨v, hv, hst⟩ := List.mem_flatMap.mp hst
      exact Or.inr (.stale (List.mem_of_mem_drop (List.mem_reverse.mp hv)) hst)
    · cases hst
  · rcases hreturned with ⟨rfl, _⟩ | ⟨output, query, found, hquery, rfl, hrelations⟩
    · cases hst
    · rw [List.mem_singleton.mp hst]
      exact Or.inr (.returned hquery hrelations)

/-- A write is one plain insert, or fills the table variables in statements of their own. -/
theorem write_cases (p : Planner) {batch : Batch} {relations : Option Relations}
    (hrun : p.write.run d = .ok ((batch, relations), d')) :
    ∃ entity tree, p.entity = .ok entity ∧ p.writtenTree entity = .ok tree ∧
      ((plainInsert tree.label entity.label.path !entity.label.isList).run d = .ok (batch, d') ∨
        ∃ filled : Batch,
          (tree.preorder.mapM fun t => fillLookup t entity.label.path).run d = .ok (filled, d') ∧
            (∀ st ∈ declarations tree, st ∈ batch) ∧
            ∀ st ∈ batch, st ∈ filled ∨ p.WrittenBy tree relations st) := by
  obtain ⟨entity, tree, hentity, htree, ⟨_, hplain⟩ | ⟨filled, returned, hfilled, hreturned, rfl⟩⟩ :=
    p.write_batch hrun
  · exact ⟨entity, tree, hentity, htree, Or.inl hplain⟩
  · refine ⟨entity, tree, hentity, htree, Or.inr ⟨filled, hfilled, fun st hst => ?_,
      fun st hst => writtenBy_of_mem hreturned hst⟩⟩
    simp only [List.append_assoc]
    exact List.mem_append_left _ hst

theorem write_extends (p : Planner) {batch : Batch} {relations : Option Relations} (hd : d.Sound)
    (hrun : p.write.run d = .ok ((batch, relations), d')) :
    d.Extends [] d' ∧ d'.Fills batch.leaves := by
  obtain ⟨entity, tree, _, _, hplain | ⟨filled, hfilled, _, hbatch⟩⟩ := p.write_cases hrun
  · exact plainInsert_extends hd hplain
  · have hstep : ∀ (t : WrittenTable) (d d' : Draft) (st : Statement), d.Sound →
        (fillLookup t entity.label.path).run d = .ok (st, d') →
          d.Extends [] d' ∧ d'.Fills (st.collect .leaves ()) :=
      fun t d d' st hd hrun => fillLookup_extends hd hrun
    obtain ⟨hext, hfills⟩ := mapM_extends hstep hd hfilled
    refine ⟨hext.mono (by simp), ?_⟩
    intro l hl
    obtain ⟨st, hst, hl⟩ := List.mem_flatMap.mp hl
    rcases hbatch st hst with hmem | hwritten
    · exact hfills l (List.mem_flatMap.mpr ⟨st, hmem, hl⟩)
    · rw [hwritten.leaves_eq_nil] at hl
      cases hl

end Planner

end ShapeSql
