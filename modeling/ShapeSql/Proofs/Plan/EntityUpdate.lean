import ShapeSql.Proofs.Plan.Lenient
import ShapeSql.Proofs.Plan.WrittenOnce
import ShapeSql.Proofs.Shape.Alike
import ShapeSql.Proofs.Sql.Updates

namespace ShapeSql

open Sql

section Written

namespace Resolver

variable (r : Resolver)

theorem column_upheld (table : Table) (field : Field) :
    Upheld (r.column table field) (r.column table field.unplaced) := by
  unfold column
  rw [show r.findColumn table field.unplaced = r.findColumn table field from rfl]
  cases r.findColumn table field with
  | none => exact .error _ _
  | some column => exact .refl _

theorem shapeTable_upheld {field field' : Field} (h : field.Alike field') :
    Upheld (r.shapeTable field) (r.shapeTable field') := by
  unfold shapeTable
  rw [h.table, h.shape]
  cases field'.table with
  | none => exact .refl _
  | some name =>
    dsimp only
    split
    · exact .refl _
    · exact .error _ _

theorem link_unplaced (parent child : Table) (field : String) (many : Bool) (path path' : Path) :
    Upheld (r.link parent child field many path) (r.link parent child field many path') := by
  refine .bind (.refl _) fun found => ?_
  cases found with
  | none => exact .error _ _
  | some link => exact .refl _

end Resolver

namespace Planner

variable {p q : Planner}

mutual

/-- Places of fields are told in errors alone. -/
theorem writtenField_unplaced (h : q.resolver = p.resolver) : ∀ (t : FieldTree) (table : Table)
    (levels : List Path) (base : Path) (columns : List WrittenColumn),
    UpheldFrom (q.writtenField table levels base columns t)
      (p.writtenField table levels base columns (t.map Field.unplaced))
  | .node field kids, table, levels, base, columns => by
    rw [Tree.map, writtenField, writtenField, h]
    refine .ite (.refl _) (.ite (.throw _ _) (.ite ?_ (.ite (.refl _) ?_)))
    · exact .bind (.lift (p.resolver.column_upheld table field)) fun _ => .refl _
    · refine .bind (.lift (p.resolver.shapeTable_upheld field.alike_unplaced)) fun found => ?_
      cases found with
      | none => exact writtenFields_unplaced h kids _ _ _ _
      | some target =>
        exact .bind (.lift (p.resolver.link_unplaced _ _ _ _ _ _)) fun _ => .bind (.refl _) fun _ =>
          .bind (writtenFields_unplaced h kids _ _ _ _) fun _ => .refl _

theorem writtenFields_unplaced (h : q.resolver = p.resolver) : ∀ (ts : List FieldTree) (table : Table)
    (levels : List Path) (base : Path) (columns : List WrittenColumn),
    UpheldFrom (q.writtenFields table levels base columns ts)
      (p.writtenFields table levels base columns (Tree.mapAll Field.unplaced ts))
  | [], table, levels, base, columns => by
    rw [Tree.mapAll, writtenFields, writtenFields]
    exact .refl _
  | t :: ts, table, levels, base, columns => by
    rw [Tree.mapAll, writtenFields, writtenFields]
    exact .bind (writtenField_unplaced h t _ _ _ _) fun _ =>
      .bind (writtenFields_unplaced h ts _ _ _ _) fun _ => .refl _

end

/-- Entities with the same fields are written to the same table. -/
theorem writtenTree_alike (hresolver : q.resolver = p.resolver) (htable : q.table = p.table)
    {entity entity' : FieldTree} {tree tree' : WrittenTree}
    (hbelow : Tree.mapAll Field.unplaced entity.children = Tree.mapAll Field.unplaced entity'.children)
    (h : p.writtenTree entity = .ok tree) (h' : q.writtenTree entity' = .ok tree') :
    tree'.label = tree.label := by
  obtain ⟨⟨⟨columns, kids⟩, _⟩, hrun, h⟩ := except_bind_ok.mp h
  obtain ⟨⟨⟨columns', kids'⟩, _⟩, hrun', h'⟩ := except_bind_ok.mp h'
  cases h
  cases h'
  rw [htable] at hrun'
  have hfirst := writtenFields_unplaced (q := p) rfl entity.children _ _ _ _ _ _ hrun
  have hsecond := writtenFields_unplaced hresolver entity'.children _ _ _ _ _ _ hrun'
  rw [hbelow, hsecond] at hfirst
  cases hfirst
  simp only [completed, Tree.label, htable, completeColumns, schema, hresolver]

end Planner

end Written

section Arguments

namespace Plan

theorem argumentTable_upheld (r : Resolver) {arguments arguments' : List FieldTree}
    (h : List.Forall₂ (fun t t' : FieldTree => t.label.Alike t'.label) arguments arguments') :
    Upheld (argumentTable r arguments) (argumentTable r arguments') := by
  induction h with
  | nil => exact .refl _
  | cons hfirst _ ih =>
    unfold argumentTable
    rw [hfirst.shape]
    split
    · refine .bind (r.shapeTable_upheld hfirst) fun found => ?_
      cases found with
      | none => exact ih
      | some table => exact .refl _
    · exact ih

/-- The target does not depend on what arguments are named, nor on whether they are lists. -/
theorem targetTable_upheld (r : Resolver) {spec spec' : QuerySpec} (htable : spec.table = spec'.table)
    (houtput : spec.output = spec'.output)
    (h : List.Forall₂ (fun t t' : FieldTree => t.label.Alike t'.label) spec.arguments.children
      spec'.arguments.children) : Upheld (targetTable r spec) (targetTable r spec') := by
  unfold targetTable
  rw [htable, houtput]
  cases spec'.table with
  | some name => exact .refl _
  | none =>
    refine .bind (.refl _) fun found => ?_
    cases found with
    | some table => exact .refl _
    | none => exact .bind (argumentTable_upheld r h) fun _ => .refl _

theorem PlannedBy.table_alike {r : Resolver} {windowAlias : String} {spec spec' : QuerySpec} {p q : Planner}
    (hp : PlannedBy r windowAlias spec p) (hq : PlannedBy r windowAlias spec' q)
    (htable : spec.table = spec'.table) (houtput : spec.output = spec'.output)
    (h : List.Forall₂ (fun t t' : FieldTree => t.label.Alike t'.label) spec.arguments.children
      spec'.arguments.children) : q.table = p.table :=
  Except.ok.inj (hq.target.symm.trans (targetTable_upheld r htable houtput h _ hp.target))

end Plan

namespace Arguments

variable {operation : Operation} {a a' : Arguments}

/-- Excluded arguments are passed over. -/
theorem foldlM_excluded {arguments : List FieldTree}
    (h : ∀ t ∈ arguments, t.label.directives.exclude = true) :
    arguments.foldlM (add operation) a = .ok a := by
  induction arguments with
  | nil => rfl
  | cons t arguments ih =>
    rw [List.forall_mem_cons] at h
    rw [List.foldlM_cons, add, if_pos h.1]
    exact ih h.2

/-- Among excluded arguments another one is sorted in alone. -/
theorem classify_alone {before after : List FieldTree} {argument : FieldTree}
    (hexcluded : ∀ t ∈ before ++ after, t.label.directives.exclude = true)
    (h : classify operation (before ++ argument :: after) = .ok a) :
    add operation default argument = .ok a := by
  rw [List.forall_mem_append] at hexcluded
  obtain ⟨sorted, hsorted, h⟩ := except_bind_ok.mp h
  rw [List.foldlM_append, foldlM_excluded hexcluded.1] at hsorted
  obtain ⟨_, hdefault, hsorted⟩ := except_bind_ok.mp hsorted
  cases hdefault
  rw [List.foldlM_cons] at hsorted
  obtain ⟨between, hbetween, hsorted⟩ := except_bind_ok.mp hsorted
  rw [foldlM_excluded hexcluded.2] at hsorted
  split at h
  · cases h
  · cases h
    cases hsorted
    exact hbetween

end Arguments

namespace Planner

variable {p : Planner} {d d' : Draft} {batch : Batch} {argument : FieldTree}

theorem filters_of_entity {entity : FieldTree} (h : p.entity = .ok entity) :
    p.arguments.filters = [entity] := by
  unfold Planner.entity at h
  split at h
  · rename_i found hfilters
    rw [hfilters]
    dsimp only at h
    split at h
    · cases h
    · obtain ⟨table, _, h⟩ := except_bind_ok.mp h
      split at h
      · split at h
        · cases h
        · cases h
          rfl
      · cases h
        rfl
  · cases h

/-- An update whose only argument has a shape is one by entity. -/
theorem update_byEntity (hrun : p.update.run d = .ok (batch, d'))
    (halone : Arguments.add p.operation default argument = .ok p.arguments)
    (hshape : argument.label.isScalar = false) :
    p.updateByEntity.run d = .ok (batch, d') ∧ ∀ entity, p.entity = .ok entity → entity = argument := by
  have hentity : ∀ entity, p.entity = .ok entity → entity = argument := by
    intro entity hentity
    have hfilters := filters_of_entity hentity
    rcases Arguments.add_cases halone with ⟨_, hnone⟩ | hsorted | hsorted | hsorted
    · cases hfilters.symm.trans hnone
    · rw [hsorted] at hfilters
      cases hfilters
    · rw [hsorted] at hfilters
      cases hfilters
    · rw [hsorted] at hfilters
      exact (List.singleton_inj.mp hfilters).symm
  refine ⟨?_, hentity⟩
  rcases update_cases hrun with ⟨_, hrun⟩ | ⟨hset, hrun⟩
  · exact hrun
  · have hargument : p.arguments.set = [argument.label] := by
      rcases Arguments.add_cases halone with ⟨hpaths, _⟩ | hsorted | hsorted | hsorted
      · have hnone := List.map_eq_nil_iff.mp (List.append_eq_nil_iff.mp hpaths).1
        rw [hnone] at hset
        exact absurd rfl hset
      · rw [hsorted] at hset
        exact absurd rfl hset
      · rw [hsorted]
        rfl
      · rw [hsorted] at hset
        exact absurd rfl hset
    simp only [updateBySet, hargument, List.mapM_cons, setAssignment, hshape, Bool.not_false, if_true,
      run_bind_ok, run_throw_ok, false_and, exists_false] at hrun

end Planner

end Arguments

section Changes

theorem Value.entry_concat (v : Value) (p q : Path) : v.entry (p.concat q) = (v.entry p).entry q := by
  have hsteps : ∀ (steps rest : List String) (v : Value),
      v.entrySteps (steps ++ rest) = (v.entrySteps steps).entrySteps rest := by
    intro steps rest
    induction steps with
    | nil =>
      intro v
      rw [List.nil_append, Value.entrySteps]
    | cons step steps ih =>
      intro v
      cases v with
      | record members => exact ih _
      | _ =>
        cases rest with
        | nil | cons _ _ => rfl
  exact hsteps p.steps q.steps v

namespace WrittenColumn

/-- The column and the value that an element has for it, if a field supplies it. -/
def cell? (element : Value) (c : WrittenColumn) : Option (String × Value) :=
  c.source.map fun field => (c.column.name, element.entry field)

/-- The values that an element has for some of the columns. -/
def cells (element : Value) (accepts : Column → Bool) (columns : List WrittenColumn) :
    List (String × Value) :=
  (columns.filter fun c => accepts c.column).filterMap (cell? element)

variable {element : Value} {accepts : Column → Bool} {column : Column} {field : Path}
  {columns : List WrittenColumn}

theorem cells_none : cells element accepts (⟨column, none⟩ :: columns) = cells element accepts columns := by
  rw [cells, List.filter_cons]
  split
  · rfl
  · rfl

theorem cells_some (h : accepts column = true) : cells element accepts (⟨column, some field⟩ :: columns) =
    (column.name, element.entry field) :: cells element accepts columns := by
  rw [cells, List.filter_cons, if_pos h]
  rfl

theorem cells_other {source : Option Path} (h : accepts column = false) :
    cells element accepts (⟨column, source⟩ :: columns) = cells element accepts columns := by
  rw [cells, List.filter_cons, if_neg (Bool.eq_false_iff.mp h)]
  rfl

/-- Where fields supply all columns, no cell is left out. -/
theorem cells_eq (h : ∀ c ∈ columns, c.source.isSome = true) :
    cells element accepts columns = (columns.filter fun c => accepts c.column).map fun c =>
      (c.column.name, element.entry (c.source.getD .root)) := by
  rw [cells, ← List.filterMap_eq_map]
  refine List.filterMap_congr fun c hc => ?_
  obtain ⟨field, hfield⟩ := Option.isSome_iff_exists.mp (h c (List.mem_of_mem_filter hc))
  rw [cell?, Function.comp_apply, hfield]
  rfl

end WrittenColumn

/-- Whether an update assigns the column. -/
def Column.isUpdated (c : Column) : Bool := !c.primaryKey && !c.autoIncrement

/-- The change that an element stands for: the rows with its key are assigned its other values, but for
those that the database fills. -/
def WrittenTable.change (t : WrittenTable) (element : Value) : RowChange where
  table := t.table.name
  key := WrittenColumn.cells element Column.primaryKey t.columns
  assigned := WrittenColumn.cells element Column.isUpdated t.columns

namespace WrittenTable

variable {s : Schema} {t : WrittenTable}

/-- A table with the columns that an entity changes it through: it is linked to no other table, and a field
supplies each of the columns, those of the key among them. -/
structure Changed (s : Schema) (t : WrittenTable) : Prop where
  table : t.table ∈ s.tables
  complete : t.Complete
  link : t.link = none
  levels : t.levels = []
  supplied : ∀ c ∈ t.columns, c.source.isSome = true

theorem column?_of_mem (h : t.Owned) {c : WrittenColumn} (hc : c ∈ t.columns) :
    t.column? c.column.id = some c := by
  have hsome : (t.column? c.column.id).isSome = true :=
    List.find?_isSome.mpr ⟨c, hc, beq_self_eq_true _⟩
  obtain ⟨found, hfound⟩ := Option.isSome_iff_exists.mp hsome
  have hsame : (found.column.id == c.column.id) = true := by
    rw [column?] at hfound
    simpa using List.find?_some hfound
  rw [hfound, List.inj_on_of_nodup_map h.distinct (List.mem_of_find?_eq_some hfound) hc
    (eq_of_beq hsame)]

theorem supplied_of_checkKeySupplied {path : Path} {columns : List Column}
    (h : Planner.checkKeySupplied t path columns = .ok ()) :
    ∀ column ∈ columns, ((t.column? column.id).bind WrittenColumn.source).isSome = true := by
  induction columns with
  | nil => exact List.forall_mem_nil _
  | cons column columns ih =>
    rw [Planner.checkKeySupplied] at h
    split at h
    · rename_i hsupplied
      exact List.forall_mem_cons.mpr ⟨hsupplied, ih h⟩
    · cases h

/-- The columns of the key are kept where those are left out that no field supplies. -/
theorem Complete.updated (hs : s.Sound) (htable : t.table ∈ s.tables) (h : t.Complete)
    (hlink : t.link = none) : (Planner.updatedTable t).Complete where
  owned := h.owned.updated
  key := by
    intro id hid
    have hlaid := hs.laid t.table htable
    obtain ⟨w, hw, rfl⟩ := h.key id hid
    rw [show (Planner.updatedTable t).table = t.table from rfl, hlaid.key] at hid
    obtain ⟨column, hcolumn, hsame⟩ := List.mem_map.mp hid
    obtain ⟨hmem, hkey⟩ := List.mem_filter.mp hcolumn
    obtain rfl := hlaid.eq_of_id hmem (h.owned.owned w hw) hsame
    exact ⟨w, List.mem_filter.mpr ⟨hw, Bool.or_eq_true_iff.mpr (Or.inr hkey)⟩, rfl⟩
  own := by
    rw [show (Planner.updatedTable t).link = t.link from rfl, hlink]
    exact List.forall_mem_nil _

/-- Among the columns of a complete table are those of its key, each of them once. -/
theorem Complete.keyColumns_perm (hs : s.Sound) (hnamed : s.NamedApart) (htable : t.table ∈ s.tables)
    (h : t.Complete) :
    ((t.columns.filter fun c => c.column.primaryKey).map WrittenColumn.column).Perm
      t.table.keyColumns := by
  have hlaid := hs.laid t.table htable
  have hdistinct : (t.columns.map WrittenColumn.column).Nodup :=
    List.Nodup.of_map Column.id (by rw [List.map_map]; exact h.owned.distinct)
  have hkey : t.table.keyColumns.Nodup := by
    rw [hlaid.keyColumns_eq]
    exact (hnamed t.table htable).of_map.filter _
  refine (List.perm_ext_iff_of_nodup (hdistinct.sublist (List.filter_sublist.map _)) hkey).mpr
    fun column => ⟨?_, ?_⟩
  · intro hcolumn
    obtain ⟨c, hc, rfl⟩ := List.mem_map.mp hcolumn
    obtain ⟨hmem, hkey⟩ := List.mem_filter.mp hc
    rw [hlaid.keyColumns_eq]
    exact List.mem_filter.mpr ⟨h.owned.owned c hmem, hkey⟩
  · intro hcolumn
    obtain ⟨c, hc, rfl⟩ := key_written hs htable h column hcolumn
    rw [hlaid.keyColumns_eq] at hcolumn
    exact List.mem_map_of_mem (List.mem_filter.mpr ⟨hc, (List.mem_filter.mp hcolumn).2⟩)

/-- The rows that are changed are found by the key. -/
theorem Changed.key_perm (hs : s.Sound) (hnamed : s.NamedApart) (h : t.Changed s) (element : Value) :
    ((t.change element).key.map Prod.fst).Perm (t.table.keyColumns.map Column.name) := by
  have hnames := (h.complete.keyColumns_perm hs hnamed h.table).map Column.name
  rw [change, WrittenColumn.cells_eq h.supplied, List.map_map]
  rwa [List.map_map] at hnames

end WrittenTable

namespace Planner

variable {p : Planner} {d d' : Draft}

theorem updatedTable_changed (hs : p.schema.Sound) {tree : WrittenTree} (hlaid : p.Laid tree)
    (htable : p.table ∈ p.schema.tables) {path : Path}
    (hcheck : checkKeySupplied (updatedTable tree.label) path p.table.keyColumns = .ok ()) :
    (updatedTable tree.label).Changed p.schema := by
  have hroot : tree.label.table ∈ p.schema.tables := hlaid.table ▸ htable
  have hcomplete := (hlaid.complete _ (Tree.label_mem_preorder tree)).updated hs hroot hlaid.link
  refine ⟨hroot, hcomplete, hlaid.link, hlaid.levels, fun c hc => ?_⟩
  rcases Bool.or_eq_true_iff.mp (List.mem_filter.mp hc).2 with hsome | hkey
  · exact hsome
  · have hcolumn : c.column ∈ p.table.keyColumns := by
      rw [← hlaid.table, (hs.laid _ hroot).keyColumns_eq]
      exact List.mem_filter.mpr ⟨hcomplete.owned.owned c hc, hkey⟩
    have hsupplied := WrittenTable.supplied_of_checkKeySupplied hcheck c.column hcolumn
    rwa [WrittenTable.column?_of_mem hcomplete.owned hc] at hsupplied

/-- A single entity is found by, and assigns, parameters that read its fields. -/
theorem entityColumns_reads {entity : Path} {columns : List WrittenColumn}
    {assignments : List Assignment} {filters : List Expr} (hd : d.Sound)
    (hrun : (p.entityColumns entity columns).run d = .ok ((assignments, filters), d')) :
    (∀ q ∈ d'.params, q ∈ d.params ∨ q.transform = .asIs) ∧
      ∀ (params : Params) (args : Value), (∀ q ∈ d'.params, q.transform = .asIs →
          params.getExact? q.name = some (args.entry q.path)) →
        List.Forall₂ (Expr.ComparesTo params p.table.name)
          (WrittenColumn.cells (args.entry entity) Column.primaryKey columns) filters ∧
        List.Forall₂ (Assignment.SetsTo params)
          (WrittenColumn.cells (args.entry entity) Column.isUpdated columns) assignments := by
  induction columns generalizing d d' assignments filters with
  | nil =>
    simp only [entityColumns, run_pure_ok, Prod.mk.injEq] at hrun
    obtain ⟨⟨rfl, rfl⟩, rfl⟩ := hrun
    exact ⟨fun _ => Or.inl, fun _ _ _ => ⟨.nil, .nil⟩⟩
  | cons written rest ih =>
    obtain ⟨column, source⟩ := written
    cases source with
    | none =>
      simp only [WrittenColumn.cells_none]
      exact ih hd hrun
    | some source =>
      simp only [entityColumns, run_bind_ok] at hrun
      obtain ⟨name, between, hname, ⟨others, conditions⟩, after, hothers, hlast⟩ := hrun
      obtain ⟨hparam, q, hq, rfl, hpath, hform⟩ := Planning.param_extends hd hname
      obtain ⟨hparams, hreads⟩ := ih hparam.sound hothers
      obtain ⟨htail, _⟩ := p.entityColumns_extends hparam.sound hothers
      have hdeclared : ∀ q ∈ between.params, q ∈ d.params ∨ q.transform = .asIs := by
        rcases Planning.param_cases hname with ⟨rfl, _⟩ | ⟨_, rfl⟩
        · exact fun _ => Or.inl
        · exact List.forall_mem_append.mpr ⟨fun _ => Or.inl,
            List.forall_mem_singleton.mpr (Or.inr rfl)⟩
      have hread : ∀ (params : Params) (args : Value), (∀ q ∈ after.params, q.transform = .asIs →
          params.getExact? q.name = some (args.entry q.path)) →
          params.getExact? q.name = some ((args.entry entity).entry source) := by
        intro params args hread
        rw [← Value.entry_concat, ← hpath]
        exact hread q (htail.params q hq) hform
      split at hlast
      · rename_i hkey
        simp only [run_pure_ok, Prod.mk.injEq] at hlast
        obtain ⟨⟨rfl, rfl⟩, rfl⟩ := hlast
        refine ⟨fun q hq => (hparams q hq).elim (hdeclared q) Or.inr, fun params args hall => ?_⟩
        obtain ⟨hfound, hassigned⟩ := hreads params args hall
        rw [WrittenColumn.cells_some hkey, WrittenColumn.cells_other (by simp [Column.isUpdated, hkey])]
        exact ⟨.cons ⟨_, rfl, hread params args hall⟩ hfound, hassigned⟩
      · rename_i hkey
        rw [Bool.not_eq_true] at hkey
        split at hlast
        · rename_i hauto
          simp only [run_pure_ok, Prod.mk.injEq] at hlast
          obtain ⟨⟨rfl, rfl⟩, rfl⟩ := hlast
          refine ⟨fun q hq => (hparams q hq).elim (hdeclared q) Or.inr, fun params args hall => ?_⟩
          obtain ⟨hfound, hassigned⟩ := hreads params args hall
          rw [WrittenColumn.cells_other hkey, WrittenColumn.cells_other (by simp [Column.isUpdated, hauto])]
          exact ⟨hfound, hassigned⟩
        · rename_i hauto
          simp only [run_pure_ok, Prod.mk.injEq] at hlast
          obtain ⟨⟨rfl, rfl⟩, rfl⟩ := hlast
          refine ⟨fun q hq => (hparams q hq).elim (hdeclared q) Or.inr, fun params args hall => ?_⟩
          obtain ⟨hfound, hassigned⟩ := hreads params args hall
          rw [WrittenColumn.cells_other hkey,
            WrittenColumn.cells_some (by simp [Column.isUpdated, hkey, hauto])]
          exact ⟨hfound, .cons ⟨_, rfl, hread params args hall⟩ hassigned⟩

end Planner

end Changes

end ShapeSql
