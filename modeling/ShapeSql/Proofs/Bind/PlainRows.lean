import ShapeSql.Proofs.Bind.LookupRows
import ShapeSql.Proofs.Bind.Reached

namespace ShapeSql

open Sql Planning

section Texts

namespace Sql

variable {α : Type} {size : Nat}

/-- Items in groups one after the other, none of them empty and all but the last one full. -/
structure Grouped (size : Nat) (groups : List (List α)) (items : List α) : Prop where
  flatten : groups.flatten = items
  bounds : ∀ group ∈ groups, 1 ≤ group.length ∧ group.length ≤ size
  full : ∀ group ∈ groups.dropLast, group.length = size

theorem Grouped.cons {groups : List (List α)} {rest : List α} (h : Grouped size groups rest)
    (first : List α) (hfirst : 1 ≤ first.length ∧ first.length ≤ size)
    (hfull : rest ≠ [] → first.length = size) :
    Grouped size (first :: groups) (first ++ rest) where
  flatten := by rw [List.flatten_cons, h.flatten]
  bounds := List.forall_mem_cons.mpr ⟨hfirst, h.bounds⟩
  full := by
    cases groups with
    | nil => exact List.forall_mem_nil _
    | cons second others =>
      have hrest : rest ≠ [] := by
        rintro rfl
        have hsecond := (h.bounds second List.mem_cons_self).1
        rw [List.flatten_eq_nil_iff.mp h.flatten second List.mem_cons_self] at hsecond
        cases hsecond
      exact List.forall_mem_cons.mpr ⟨hfull hrest, h.full⟩

theorem chunksUpTo_grouped (hsize : 0 < size) : ∀ (fuel : Nat) (items : List α), items.length ≤ fuel →
    Grouped size (chunksUpTo size fuel items) items
  | 0, items, hfuel => by
    rw [List.eq_nil_of_length_eq_zero (Nat.le_zero.mp hfuel)]
    exact ⟨rfl, nofun, nofun⟩
  | _ + 1, [], _ => ⟨rfl, nofun, nofun⟩
  | fuel + 1, item :: items, hfuel => by
    have hlength : (item :: items).length ≠ 0 := nofun
    have hdrop : ((item :: items).drop size).length ≤ fuel := by
      rw [List.length_drop]
      omega
    have hcons := (chunksUpTo_grouped hsize fuel _ hdrop).cons ((item :: items).take size)
      (by rw [List.length_take]; omega)
      (fun hrest => by
        rw [← List.length_pos_iff, List.length_drop] at hrest
        rw [List.length_take]
        omega)
    rw [List.take_append_drop] at hcons
    exact hcons

theorem chunks_grouped (hsize : 0 < size) (items : List α) : Grouped size (chunks size items) items :=
  chunksUpTo_grouped hsize _ items le_rfl

theorem chunksUpTo_map {β : Type} (f : α → β) (size : Nat) : ∀ (fuel : Nat) (items : List α),
    chunksUpTo size fuel (items.map f) = (chunksUpTo size fuel items).map (·.map f)
  | 0, _ => rfl
  | _ + 1, [] => rfl
  | fuel + 1, item :: items => by
    have hrest := chunksUpTo_map f size fuel ((item :: items).drop size)
    rw [List.map_drop] at hrest
    exact congrArg₂ List.cons List.map_take.symm hrest

/-- A row constructor of parameters. -/
def parameterRow (names : List String) : List Lexeme := rowWritten (names.map fun name => [.atName name])

/-- An INSERT and the rows that it inserts: those of its row constructors, or a single row of defaults
where no column is listed. -/
inductive InsertOf (table : String) (columns : List String) : List Lexeme → List (List String) → Prop
  | values (rows : List (List String)) : columns ≠ [] → InsertOf table columns
      (insertHead (.table table) columns ++ .word " VALUES " :: commaed (rows.map parameterRow)) rows
  | defaults : columns = [] →
      InsertOf table columns (insertHead (.table table) columns ++ [.word " DEFAULT VALUES"]) [[]]

/-- A text of INSERT statements, with the rows of parameters that they insert: a thousand in every
statement but the last one, which has the rest. -/
def InsertsRows (text table : String) (columns : List String) (rows : List (List String)) : Prop :=
  ∃ statements groups, text = textOf (separated ";\n" statements ++ [.word ";"]) ∧
    List.Forall₂ (InsertOf table columns) statements groups ∧ Grouped maxRows groups rows

variable {table text : String} {columns : List String} {rows : List (List String)}

theorem exprsWritten_params (holes : HolePrinter) (names : List String) :
    exprsWritten holes (names.map .param) = .ok (names.map fun name => [.atName name]) := by
  induction names with
  | nil => rfl
  | cons name names ih =>
    rw [List.map_cons, exprsWritten, Expr.written, ih]
    rfl

theorem rowsWritten_params (holes : HolePrinter) (rows : List (List String)) :
    rowsWritten holes (rows.map (·.map .param)) =
      .ok (rows.map (·.map fun name => [.atName name])) := by
  induction rows with
  | nil => rfl
  | cons row rows ih =>
    rw [rowsWritten] at ih
    rw [List.map_cons, rowsWritten, List.mapM_cons, exprsWritten_params, ih]
    rfl

/-- Rows of parameters are inserted as they are. -/
theorem insertsRows_render (hcolumns : columns ≠ []) (hrows : rows ≠ [])
    (h : Batch.render [.insert (.table table) columns (.rows (rows.map (·.map .param)))] .empty =
      .ok text) : InsertsRows text table columns rows := by
  obtain ⟨row, others, rfl⟩ := List.exists_cons_of_ne_nil hrows
  have hlisted : columns.isEmpty = false := List.isEmpty_eq_false_iff.mpr hcolumns
  have hwritten : Batch.written [.insert (.table table) columns
      (.rows ((row :: others).map (·.map .param)))] .empty =
      .ok (separated ";\n" ((chunks maxRows (row :: others)).map fun group =>
        insertHead (.table table) columns ++ .word " VALUES " :: commaed (group.map parameterRow))
          ++ [.word ";"]) := by
    have hgroups := chunksUpTo_map (fun names : List String => names.map fun name => [Lexeme.atName name])
      maxRows (row :: others).length (row :: others)
    rw [Batch.written, List.mapM_cons, List.mapM_nil, Statement.written, insertWritten, hlisted,
      if_neg Bool.false_ne_true, rowsWritten_params]
    show Except.ok (separated ";\n" [insertRows (insertHead (.table table) columns) columns
      ((row :: others).map _)] ++ [.word ";"]) = _
    rw [insertRows, separated, List.intercalate_singleton, chunks, List.length_map, hgroups, List.map_map]
    · simp only [List.map_map, Function.comp_def]
      rfl
    · exact List.cons_ne_nil _ _
  rw [Batch.render, hwritten] at h
  obtain rfl := Except.ok.inj h
  exact ⟨_, _, rfl,
    List.forall₂_map_left_iff.mpr (List.forall₂_same.mpr fun group _ => .values group hcolumns),
    chunks_grouped (by decide) _⟩

/-- Without columns a single row is inserted, whatever the rows. -/
theorem insertsRows_defaults {source : InsertSource}
    (h : Batch.render [.insert (.table table) [] source] .empty = .ok text) :
    InsertsRows text table [] rows ↔ rows = [[]] := by
  obtain rfl : text =
      textOf (insertHead (.table table) [] ++ [.word " DEFAULT VALUES"] ++ [.word ";"]) :=
    (Except.ok.inj h).symm
  constructor
  · rintro ⟨statements, groups, htext, hstatements, hgrouped⟩
    rw [← hgrouped.flatten]
    have hchars := String.ofList_injective htext
    cases hstatements with
    | nil => cases hchars
    | cons hfirst hothers =>
      cases hfirst with
      | values _ hcolumns => exact absurd rfl hcolumns
      | defaults _ =>
        cases hothers with
        | nil => rfl
        | cons _ _ =>
          simp only [separated, List.intercalate_cons_cons, List.append_assoc, List.flatMap_append,
            List.append_cancel_left_eq] at hchars
          cases hchars
  · rintro rfl
    exact ⟨[_], [[[]]], rfl, .cons (.defaults rfl) .nil, ⟨rfl, by decide, nofun⟩⟩

end Sql

end Texts

section Parameters

/-- The parameters of the rows of entities, one for each field, with the values that they have. -/
def RowNames.parameters (names : RowNames) (fields : List Path) (entities : List Value) :
    List (List (String × Value)) :=
  entities.zipIdx.map fun (entity, number) => fields.zipIdx.map fun (field, position) =>
    (RowsSource.cellName names number position, entity.entry field)

/-- Names of cells tell the cells apart: they are derived, or listed for a single row. -/
inductive RowNames.TellsApart (rows columns : Nat) : RowNames → Prop
  | fields {names : List String} : rows ≤ 1 → names.length = columns → names.Nodup →
      TellsApart rows columns (.fields names)
  | derived (base : String) : TellsApart rows columns (.derived base)

/-- The rows of a plain insert, which has rows. -/
def RowNames.plainSource (names : RowNames) (fields : List Path) : RowsSource where
  names := names
  levels := []
  columns := fields.map .field
  required := true

namespace RowNames

variable {names : RowNames} {fields : List Path} {entities : List Value}

theorem TellsApart.cellName_inj {rows columns : Nat} (h : names.TellsApart rows columns)
    {i j k l : Nat} (hi : i < rows) (hj : j < rows) (hk : k < columns) (hl : l < columns)
    (hsame : RowsSource.cellName names i k = RowsSource.cellName names j l) : i = j ∧ k = l := by
  cases h with
  | derived base => exact (ShapeSql.cellName_inj hsame).2
  | @fields listed hrows hlength hnodup =>
    refine ⟨by omega, ?_⟩
    rw [← hlength] at hk hl
    simp only [RowsSource.cellName, List.getD_eq_getElem?_getD, List.getElem?_eq_getElem hk,
      List.getElem?_eq_getElem hl, Option.getD_some] at hsame
    exact (hnodup.getElem_inj_iff).mp hsame

/-- No two cells have one parameter. -/
theorem TellsApart.nodup_parameters (h : names.TellsApart entities.length fields.length) :
    ((names.parameters fields entities).flatten.map Prod.fst).Nodup := by
  have hplace : ∀ {α : Type} {items : List α} {p : α × Nat}, p ∈ items.zipIdx → p.2 < items.length :=
    fun hp => by simpa using List.snd_lt_of_mem_zipIdx hp
  rw [parameters, ← List.flatMap_def, List.Nodup, List.pairwise_map, List.pairwise_flatMap]
  constructor
  · rintro ⟨entity, number⟩ hentity
    rw [List.pairwise_map]
    refine (zipIdx_apart fields).imp_of_mem fun hp hq happart hsame => ?_
    exact happart (h.cellName_inj (hplace hentity) (hplace hentity) (hplace hp) (hplace hq) hsame).2
  · refine (zipIdx_apart entities).imp_of_mem fun hp hq happart m hm n hn hsame => ?_
    obtain ⟨place, hk, rfl⟩ := List.mem_map.mp hm
    obtain ⟨other, hl, rfl⟩ := List.mem_map.mp hn
    exact happart (h.cellName_inj (hplace hp) (hplace hq) (hplace hk) (hplace hl) hsame).1

/-- What the rule of a plain insert makes of a value: a row for each entity, of which there is one, and
no more than one where the names are listed. -/
theorem fill_plainSource {path : Path} {value : Value} {g : Filling}
    (h : (names.plainSource fields).fill path value = .ok g) :
    value.presentItems ≠ [] ∧
      (∀ listed, names = .fields listed → value.presentItems.length ≤ 1) ∧
      g.fragment = .rows ((names.parameters fields value.presentItems).map
        (·.map fun m => .param m.1)) ∧
      g.added = (names.parameters fields value.presentItems).flatten := by
  have hrows : (((names.plainSource fields).elements value.presentItems).zipIdx.map fun p =>
      (names.plainSource fields).row p.1 p.2) =
      (names.parameters fields value.presentItems).map
        (·.map fun m => ((.param m.1, [m]) : Expr × List (String × Value))) := by
    rw [RowsSource.elements, plainSource, List.foldl_nil, List.zipIdx_map, parameters, List.map_map,
      List.map_map]
    refine List.map_congr_left fun place _ => ?_
    show List.map _ ((fields.map RowColumn.field).zipIdx) = List.map _ (List.map _ _)
    rw [List.zipIdx_map, List.map_map, List.map_map]
    rfl
  have hfragment : ((names.parameters fields value.presentItems).map
      (·.map fun m => ((.param m.1, [m]) : Expr × List (String × Value)))).map (·.map Prod.fst) =
      (names.parameters fields value.presentItems).map (·.map fun m => .param m.1) := by
    simp only [List.map_map, Function.comp_def]
  have hadded : ((names.parameters fields value.presentItems).map
      (·.map fun m => ((.param m.1, [m]) : Expr × List (String × Value)))).flatMap
        (·.flatMap Prod.snd) = (names.parameters fields value.presentItems).flatten := by
    simp only [List.flatMap_map, List.flatMap_singleton', List.flatMap_id']
  obtain ⟨hpresent, hsingle, rfl⟩ := RowsSource.fill_ok_iff.mp h
  rw [RowsSource.fillingOf, RowsSource.rowsOf, hrows]
  exact ⟨hpresent rfl, hsingle, by rw [hfragment], by rw [hadded]⟩

end RowNames

end Parameters

section Columns

/-- A field of an entity that supplies a column of the target table, itself or through shapes that are
embedded in it; `base` leads to the field, the path to the value. -/
inductive Planner.Supplies (p : Planner) : Path → FieldTree → Path → Column → Prop
  | scalar {base : Path} {field : Field} {kids : List FieldTree} {column : Column} :
      field.isScalar = true → p.resolver.column p.table field = .ok column →
        Supplies p base (.node field kids) (base.join field.name) column
  | embedded {base path : Path} {field : Field} {kids : List FieldTree} {kid : FieldTree}
      {column : Column} : p.resolver.shapeTable field = .ok none → kid ∈ kids →
        Supplies p (base.join field.name) kid path column →
          Supplies p base (.node field kids) path column

namespace Planner

variable {p : Planner}

theorem mem_addWritten {columns : List WrittenColumn} {column : Column} {source : Option Path}
    {c : WrittenColumn} (h : c ∈ addWritten columns column source) : c ∈ columns ∨ c = ⟨column, source⟩ := by
  unfold addWritten at h
  split at h
  · exact Or.inl h
  · exact (List.mem_append.mp h).imp_right List.mem_singleton.mp

/-- Columns that are filled in by the batch have no field. -/
theorem mem_addFilled {s : Schema} {ids : List ColumnId} {columns : List WrittenColumn}
    {c : WrittenColumn} (h : c ∈ addFilled s columns ids) : c ∈ columns ∨ c.source = none := by
  induction ids generalizing columns with
  | nil => exact Or.inl h
  | cons id ids ih =>
    rw [addFilled, List.foldl_cons] at h
    rcases ih h with hmem | hnone
    · split at hmem
      · exact (mem_addWritten hmem).imp_right fun hnew => by rw [hnew]
      · exact Or.inl hmem
    · exact Or.inr hnone

theorem mem_completeColumns {t : WrittenTable} {children : List WrittenTable} {c : WrittenColumn}
    (h : c ∈ p.completeColumns t children) : c ∈ t.columns ∨ c.source = none := by
  have hchildren : ∀ (children : List WrittenTable) (columns : List WrittenColumn),
      c ∈ children.foldl (fun columns child =>
        addFilled p.schema columns (Link.columnsAbove child.link)) columns →
        c ∈ columns ∨ c.source = none := by
    intro children
    induction children with
    | nil => exact fun _ => Or.inl
    | cons child children ih =>
      intro columns h
      exact (ih _ h).elim mem_addFilled Or.inr
  rcases hchildren children _ h with h | hnone
  · rcases mem_addFilled h with h | hnone
    · exact mem_addFilled h
    · exact Or.inr hnone
  · exact Or.inr hnone

mutual

theorem writtenField_supplies : ∀ (t : FieldTree) {levels : List Path} {base : Path}
    {columns : List WrittenColumn} {n n' : Nat} {result : List WrittenColumn × List WrittenTree},
    (p.writtenField p.table levels base columns t).run n = .ok (result, n') → ∀ c ∈ result.1,
      c ∈ columns ∨ ∃ path, c.source = some path ∧ p.Supplies base t path c.column
  | .node field kids, levels, base, columns, n, n', result, hrun => by
    cases enters_of_writtenField hrun with
    | passed => exact fun _ => Or.inl
    | scalar hscalar hcolumn =>
      intro c hc
      refine (mem_addWritten hc).imp_right ?_
      rintro rfl
      exact ⟨_, rfl, .scalar hscalar hcolumn⟩
    | embedded hshape hbelow =>
      intro c hc
      refine (writtenFields_supply kids hbelow c hc).imp_right ?_
      rintro ⟨kid, hkid, path, hpath, hsupplies⟩
      exact ⟨path, hpath, .embedded hshape hkid hsupplies⟩
    | table => exact fun _ => Or.inl

theorem writtenFields_supply : ∀ (ts : List FieldTree) {levels : List Path} {base : Path}
    {columns : List WrittenColumn} {n n' : Nat} {result : List WrittenColumn × List WrittenTree},
    (p.writtenFields p.table levels base columns ts).run n = .ok (result, n') → ∀ c ∈ result.1,
      c ∈ columns ∨ ∃ t ∈ ts, ∃ path, c.source = some path ∧ p.Supplies base t path c.column
  | [], levels, base, columns, n, n', result, hrun => by
    rw [writtenFields, run_pure_ok] at hrun
    obtain ⟨rfl, rfl⟩ := hrun
    exact fun _ => Or.inl
  | t :: ts, levels, base, columns, n, n', result, hrun => by
    simp only [writtenFields, run_bind_ok, run_pure_ok] at hrun
    obtain ⟨⟨more, first⟩, between, hfirst, ⟨all, others⟩, after, hothers, rfl, rfl⟩ := hrun
    intro c hc
    rcases writtenFields_supply ts hothers c hc with hmem | ⟨t', ht', hsupplies⟩
    · exact (writtenField_supplies t hfirst c hmem).imp_right fun h => ⟨t, List.mem_cons_self, h⟩
    · exact Or.inr ⟨t', List.mem_cons_of_mem _ ht', hsupplies⟩

end

/-- What has a field among the columns of the target table is supplied by a field of the entity. -/
theorem writtenTree_supplies {entity : FieldTree} {tree : WrittenTree}
    (h : p.writtenTree entity = .ok tree) :
    tree.label.table = p.table ∧ ∀ c ∈ tree.label.columns, ∀ path, c.source = some path →
      ∃ field ∈ entity.children, p.Supplies .root field path c.column := by
  unfold writtenTree at h
  obtain ⟨⟨⟨columns, kids⟩, next⟩, hkids, h⟩ := except_bind_ok.mp h
  cases h
  refine ⟨rfl, fun c hc path hpath => ?_⟩
  rcases mem_completeColumns hc with hmem | hnone
  · rcases writtenFields_supply _ hkids c hmem with hnil | ⟨field, hfield, found, hfound, hsupplies⟩
    · cases hnil
    · obtain rfl := Option.some.inj (hfound.symm.trans hpath)
      exact ⟨field, hfield, hsupplies⟩
  · rw [hnone] at hpath
    cases hpath

end Planner

end Columns

section Plans

/-- The columns that a plain insert lists: those that a field supplies, but no identity columns. -/
def WrittenTable.supplied (t : WrittenTable) : List WrittenColumn :=
  t.columns.filter fun c => c.source.isSome && !c.column.autoIncrement

/-- The parameter has the value of the field that supplies the column. -/
def WrittenColumn.ReadsAs (params : Params) (element : Value) (c : WrittenColumn) (name : String) : Prop :=
  ∃ field, c.source = some field ∧ params.getExact? name = some (element.entry field)

namespace Planner

variable {p : Planner} {d d' : Draft} {entity : Path} {t : WrittenTable}

/-- Names that are taken one after the other differ from each other and from those taken before. -/
theorem singleNames_nodup {α : Type} {wanted : α → String} {items : List α} {names : List String}
    (hrun : (items.mapM fun a => singleName (wanted a)).run d = .ok (names, d')) :
    names.length = items.length ∧ names.Nodup ∧ ∀ name ∈ names, lowerAscii name ∉ d.names.taken := by
  induction items generalizing d names with
  | nil =>
    rw [List.mapM_nil, run_pure_ok] at hrun
    obtain ⟨rfl, rfl⟩ := hrun
    exact ⟨rfl, List.nodup_nil, nofun⟩
  | cons first rest ih =>
    rw [List.mapM_cons] at hrun
    simp only [run_bind_ok, run_pure_ok] at hrun
    obtain ⟨name, between, hname, others, after, hothers, rfl, rfl⟩ := hrun
    obtain ⟨hlength, hnodup, hlater⟩ := ih hothers
    cases hname
    have hfree := Names.unused_isFree d.names (wanted first)
    refine ⟨by rw [List.length_cons, hlength, List.length_cons], List.nodup_cons.mpr ⟨?_, hnodup⟩,
      List.forall_mem_cons.mpr ⟨((Names.isFree_iff _ _).mp hfree).1, ?_⟩⟩
    · exact fun hmem => hlater _ hmem List.mem_cons_self
    · exact fun other hother htaken => hlater other hother (List.mem_cons_of_mem _ htaken)

theorem rowNames_tellsApart {single : Bool} {fields : List Path} {names : RowNames} {rows : Nat}
    (hrun : (rowNames t entity single fields).run d = .ok (names, d'))
    (hrows : ∀ listed, names = .fields listed → rows ≤ 1) : names.TellsApart rows fields.length := by
  rcases rowNames_cases hrun with ⟨listed, hlisted, rfl⟩ | ⟨base, _, rfl⟩
  · obtain ⟨hlength, hnodup, _⟩ := singleNames_nodup hlisted
    exact .fields (hrows listed rfl) hlength hnodup
  · exact .derived base

/-- What a plain insert consists of. -/
theorem plainInsert_eq {single : Bool} {batch : Batch}
    (hrun : (plainInsert t entity single).run d = .ok (batch, d')) :
    ∃ (names : RowNames) (hole : HoleId),
      batch = [.insert (.table t.table.name) (t.supplied.map fun c => c.column.name) (.hole hole)] ∧
      d'.rules = d.rules ++
        [⟨hole, entity, .rows (names.plainSource (t.supplied.filterMap WrittenColumn.source))⟩] ∧
      ∀ rows, (∀ listed, names = .fields listed → rows ≤ 1) →
        names.TellsApart rows (t.supplied.filterMap WrittenColumn.source).length := by
  obtain ⟨names, between, hnames, hole, hhole, rfl⟩ := plainInsert_inv hrun
  have hkept : between.rules = d.rules := (rowNames_keeps hnames).1
  cases hhole
  refine ⟨names, _, rfl, ?_, fun rows => rowNames_tellsApart hnames⟩
  rw [← hkept]
  rfl

end Planner

/-- Every column that a plain insert lists has a field. -/
theorem WrittenTable.forall₂_supplied (t : WrittenTable) :
    List.Forall₂ (fun c field => c.source = some field) t.supplied
      (t.supplied.filterMap WrittenColumn.source) := by
  have hsources : ∀ columns : List WrittenColumn, (∀ c ∈ columns, c.source.isSome = true) →
      List.Forall₂ (fun c field => c.source = some field) columns
        (columns.filterMap WrittenColumn.source) := by
    intro columns
    induction columns with
    | nil => exact fun _ => .nil
    | cons c others ih =>
      intro hsome
      rw [List.forall_mem_cons] at hsome
      obtain ⟨field, hfield⟩ := Option.isSome_iff_exists.mp hsome.1
      rw [List.filterMap_cons, hfield]
      exact .cons hfield (ih hsome.2)
  exact hsources _ fun c hc => (Bool.and_eq_true_iff.mp (List.mem_filter.mp hc).2).1

/-- Parameters that keep their values read as the fields of the entities. -/
theorem RowNames.forall₂_parameters {params : Params} {names : RowNames} {t : WrittenTable}
    {entities : List Value}
    (hparams : ∀ m ∈ (names.parameters (t.supplied.filterMap WrittenColumn.source) entities).flatten,
      params.getExact? m.1 = some m.2) :
    List.Forall₂ (fun element row => List.Forall₂ (WrittenColumn.ReadsAs params element) t.supplied row)
      entities ((names.parameters (t.supplied.filterMap WrittenColumn.source) entities).map
        (·.map Prod.fst)) := by
  have hsources := t.forall₂_supplied
  generalize t.supplied.filterMap WrittenColumn.source = fields at hsources hparams ⊢
  rw [← List.zipIdx_map_fst 0 fields, List.forall₂_map_right_iff] at hsources
  have hplaces := (List.forall₂_and_left (p := (· ∈ fields.zipIdx)) _ _).mpr
    ⟨fun _ hplace => hplace, hsources.flip⟩
  have hrow : ∀ place ∈ entities.zipIdx, List.Forall₂ (WrittenColumn.ReadsAs params place.1) t.supplied
      ((fields.zipIdx.map fun field =>
        (RowsSource.cellName names place.2 field.2, place.1.entry field.1)).map Prod.fst) := by
    intro place hplace
    rw [List.map_map, List.forall₂_map_right_iff]
    refine hplaces.flip.imp fun c field ⟨hfield, hsource⟩ => ⟨field.1, hsource, ?_⟩
    exact hparams _ (List.mem_flatten.mpr
      ⟨_, List.mem_map_of_mem hplace, List.mem_map_of_mem (f := fun field : Path × Nat =>
        (RowsSource.cellName names place.2 field.2, place.1.entry field.1)) hfield⟩)
  rw [RowNames.parameters, List.map_map, List.forall₂_map_right_iff]
  conv in entities => rw [← List.zipIdx_map_fst 0 entities]
  exact List.forall₂_map_left_iff.mpr (List.forall₂_same.mpr hrow)

/-- The rows of a plain insert are bound to its hole, and each of their parameters keeps its value. -/
theorem Plan.plainRows_bound {plan : Plan} (hplan : plan.Sound) {s : Schema} {args : Value} {hole : HoleId}
    {entity : Path} {names : RowNames} {fields : List Path}
    (hrules : plan.rules = [⟨hole, entity, .rows (names.plainSource fields)⟩])
    (hnames : ∀ rows, (∀ listed, names = .fields listed → rows ≤ 1) →
      names.TellsApart rows fields.length) {subs : Substitution} {params : Params}
    (h : plan.substitution s args = .ok (subs, params)) :
    (args.entry entity).presentItems ≠ [] ∧
      subs.find? hole = some (.rows ((names.parameters fields (args.entry entity).presentItems).map
        (·.map fun m => .param m.1))) ∧
      ∀ m ∈ (names.parameters fields (args.entry entity).presentItems).flatten,
        params.getExact? m.1 = some m.2 := by
  obtain ⟨b, declared, hb, rfl, happend⟩ := Plan.substitution_ok h
  have hbinds : b.Binds s args plan.rules := by
    rcases Binding.ofRules_binds s args hplan.layered hplan.fits with ⟨e, he⟩ | ⟨b', hb', hbinds⟩
    · rw [hb] at he
      cases he
    · rw [hb] at hb'
      cases hb'
      exact hbinds
  obtain ⟨g, hg, hfound⟩ := hbinds.filled _ (hrules ▸ List.mem_singleton.mpr rfl)
  obtain ⟨hpresent, hsingle, hfragment, hadded⟩ := RowNames.fill_plainSource hg
  refine ⟨hpresent, hfragment ▸ hfound, fun m hm => (Binding.append_finds happend).2 m ?_⟩
  obtain ⟨fillings, hfillings, hmembers⟩ := Binding.ofRules_added hb
  rw [hrules] at hfillings
  cases hfillings with
  | cons hfirst hnone =>
    cases hnone
    obtain rfl := Except.ok.inj (hg.symm.trans hfirst)
    rw [hmembers, List.flatMap_singleton, hadded,
      Record.ofMembers_of_nodup (hnames _ hsingle).nodup_parameters]
    exact hm

end Plans

theorem filled_parameters {subs : Substitution} {hole : HoleId} {rows : List (List (String × Value))}
    (h : subs.find? hole = some (.rows (rows.map (·.map fun m => .param m.1)))) (table : String)
    (columns : List String) :
    Batch.filled [.insert (.table table) columns (.hole hole)] subs =
      [.insert (.table table) columns (.rows ((rows.map (·.map Prod.fst)).map (·.map .param)))] := by
  obtain ⟨inner, hrows⟩ := HoleFiller.ofSubstitution_rows h
  have hclosed : ∀ row : List (String × Value), exprsFilled inner (row.map fun m => .param m.1) =
      (row.map Prod.fst).map .param := by
    intro row
    rw [exprsFilled_eq, List.map_map, List.map_map]
    rfl
  rw [Batch.filled, List.map_singleton, Statement.filled, InsertSource.filled, hrows, List.map_map,
    List.map_map]
  simp only [Function.comp_def, hclosed]

namespace Compiler

/-- The text that an insert of a single table is bound to inserts a row for each entity, in their order,
with the entity's values in the listed columns, exactly if there is a column to list or a single entity;
listed are columns that fields of the entity supply. -/
theorem compile_plainRows {declarations : List TableDeclaration} {schema : Schema}
    {setup : CompilerSetup} {c : Compiler} {spec : QuerySpec} {compiled : Compiled}
    (hschema : Schema.build declarations = .ok schema) (hsetup : setup.schema = some schema)
    (hbuild : setup.build = .ok c) (hcompile : c.compile spec = .ok compiled)
    (hinsert : spec.operation = .insert) {target : InsertTarget} {columns : List String}
    {source : InsertSource} (hplain : compiled.plan.batch = [.insert target columns source]) :
    ∃ p entity tree, Plan.PlannedBy c.resolver c.options.keyWindowAlias spec p ∧
      p.entity = .ok entity ∧ p.writtenTree entity = .ok tree ∧
      columns = (tree.label.supplied.map fun c => c.column.name) ∧
      (∀ c ∈ tree.label.supplied, ∃ path, c.source = some path ∧
        ∃ field ∈ entity.children, p.Supplies .root field path c.column) ∧
      ∀ args bound, compiled.bind args = .ok bound →
        (args.entry entity.label.path).presentItems ≠ [] ∧
        ((∃ rows, InsertsRows bound.sql p.table.name columns rows ∧
          List.Forall₂ (fun element row =>
              List.Forall₂ (WrittenColumn.ReadsAs bound.params element) tree.label.supplied row)
            (args.entry entity.label.path).presentItems rows) ↔
          columns ≠ [] ∨ (args.entry entity.label.path).presentItems.length = 1) := by
  obtain ⟨p, d, hp, hrun, hrules, _⟩ := planner_of_compile hschema hsetup hbuild hcompile
  have hwrite := Planner.write_of_statements hrun (hp.operation ▸ Or.inl hinsert)
  obtain ⟨entity, tree, hentity, htree, ⟨_, hplainly⟩ | ⟨filled, returned, hfilled, _, hbatch⟩⟩ :=
    p.write_batch hwrite
  · obtain ⟨htable, hsupplied⟩ := Planner.writtenTree_supplies htree
    obtain ⟨names, hole, hbatch, hadded, hnames⟩ := Planner.plainInsert_eq hplainly
    obtain ⟨rfl, rfl, rfl⟩ : target = .table tree.label.table.name ∧
        columns = (tree.label.supplied.map fun c => c.column.name) ∧ source = .hole hole := by
      rw [hplain] at hbatch
      simpa using hbatch
    refine ⟨p, entity, tree, hp, hentity, htree, rfl, fun c hc => ?_, fun args bound hbind => ?_⟩
    · obtain ⟨hmem, hwritten⟩ := List.mem_filter.mp hc
      obtain ⟨path, hpath⟩ := Option.isSome_iff_exists.mp (Bool.and_eq_true_iff.mp hwritten).1
      exact ⟨path, hpath, hsupplied c hmem path hpath⟩
    · obtain ⟨subs, params, batch, hsubs, _, rfl, hrender⟩ := Compiled.resolved_of_bind hbind
      obtain ⟨subs', hsubs'⟩ := Plan.substitution_of_bind hbind
      obtain ⟨rfl, rfl⟩ : subs = subs' ∧ params = bound.params := by
        rw [hsubs] at hsubs'
        exact Prod.mk.inj (Except.ok.inj hsubs')
      have hsound := Plan.ofSpec_sound (ofSpec_of_compile hcompile).2
      obtain ⟨hpresent, hfound, hparams⟩ :=
        Plan.plainRows_bound hsound (hrules.trans hadded) hnames hsubs
      rw [hplain, htable, filled_parameters hfound] at hrender
      refine ⟨hpresent, ?_⟩
      have hreads := RowNames.forall₂_parameters hparams
      by_cases hlisted : tree.label.supplied = []
      · rw [hlisted, List.map_nil] at hrender
        rw [hlisted, List.map_nil]
        constructor
        · rintro ⟨rows, hinserts, hrows⟩
          rw [(insertsRows_defaults hrender).mp hinserts] at hrows
          exact Or.inr hrows.length_eq
        · rintro (hnone | hone)
          · exact absurd rfl hnone
          · obtain ⟨element, helement⟩ := List.length_eq_one_iff.mp hone
            rw [helement]
            exact ⟨[[]], (insertsRows_defaults hrender).mpr rfl, .cons .nil .nil⟩
      · have hcolumns : (tree.label.supplied.map fun c => c.column.name) ≠ [] :=
          fun hnone => hlisted (List.map_eq_nil_iff.mp hnone)
        refine iff_of_true ⟨_, insertsRows_render hcolumns ?_ hrender, hreads⟩ (Or.inl hcolumns)
        intro hnone
        rw [hnone] at hreads
        exact hpresent (List.forall₂_nil_right_iff.mp hreads)
  · obtain ⟨t, kids⟩ := tree
    rw [hplain] at hbatch
    have hfirst := (List.cons.inj (hbatch : _ = t.declareLookup :: _)).1
    cases hfirst

/-- Employees are numbered by the database. -/
def staffDeclarations : List TableDeclaration := [
  ⟨"Employee", .table, [⟨"Id", .integer 4, false, true, true⟩, ⟨"Name", .text, true, false, false⟩], []⟩]

/-- Employees with a name, and with no more than their number. -/
def staffShapes : Shapes := .ofList [
  ⟨"Employee", none, [⟨"Id", .i32, false, default⟩, ⟨"Name", .text, false, default⟩]⟩,
  ⟨"Unnamed", some "Employee", [⟨"Id", .i32, false, default⟩]⟩]

def staffInsert (shape : String) : SpecDeclaration where
  operation := .insert
  table := some "Employee"
  arguments := [⟨"Employees", .list (.shape shape), false, default⟩]
  returns := []

def staffArguments : Value := .record [("Employees", .list [
  .record [("Id", .i32 1), ("Name", .text "Ann")], .null, .record [("Id", .i32 2), ("Name", .text "Lee")]])]

/-- The insert is one statement, lists these columns, and is bound to a text that passes. -/
def plainTest (columns : List String) (text : String → Bool) (_ : Compiler) (spec : QuerySpec)
    (compiled : Compiled) : Bool :=
  decide (spec.operation = .insert) &&
  (match compiled.plan.batch with
    | [.insert (.table name) listed _] => name == "Employee" && listed == columns
    | _ => false) &&
  (compiled.bind staffArguments).toOption.any fun bound => text bound.sql

theorem exists_plain (shape : String) (columns : List String) (text : String → Bool)
    (h : ((Schema.build staffDeclarations).toOption.any fun schema =>
      ((staffInsert shape).build staffShapes).toOption.any fun spec =>
        ((⟨schema, default, .exact⟩ : Compiler).compile spec).toOption.any
          (plainTest columns text ⟨schema, default, .exact⟩ spec)) = true) :
    ∃ schema spec compiled source bound, Schema.build staffDeclarations = .ok schema ∧
      (staffInsert shape).build staffShapes = .ok spec ∧
      (⟨schema, default, .exact⟩ : Compiler).compile spec = .ok compiled ∧ spec.operation = .insert ∧
      compiled.plan.batch = [.insert (.table "Employee") columns source] ∧
      compiled.bind staffArguments = .ok bound ∧ text bound.sql = true := by
  obtain ⟨schema, spec, compiled, hschema, hspec, hcompile, htest⟩ := exists_compiled h
  simp only [plainTest, Bool.and_eq_true, decide_eq_true_eq] at htest
  obtain ⟨⟨hinsert, hplain⟩, hbinds⟩ := htest
  obtain ⟨bound, hbind, htext⟩ := exists_ok_of_any hbinds
  split at hplain
  · rename_i name listed source hbatch
    simp only [Bool.and_eq_true, beq_iff_eq] at hplain
    obtain ⟨rfl, rfl⟩ := hplain
    exact ⟨schema, spec, compiled, source, bound, hschema, hspec, hcompile, hinsert, hbatch, hbind, htext⟩
  · cases hplain

/-- Two employees are inserted by their names. -/
theorem compile_plainRows_staff :
    ∃ schema spec compiled source bound, Schema.build staffDeclarations = .ok schema ∧
      (staffInsert "Employee").build staffShapes = .ok spec ∧
      (⟨schema, default, .exact⟩ : Compiler).compile spec = .ok compiled ∧
      compiled.plan.batch = [.insert (.table "Employee") ["Name"] source] ∧
      compiled.bind staffArguments = .ok bound ∧
      ∃ (p : Planner) (entity : FieldTree) (tree : WrittenTree) (rows : List (List String)),
        InsertsRows bound.sql p.table.name ["Name"] rows ∧
        List.Forall₂ (fun element row =>
            List.Forall₂ (WrittenColumn.ReadsAs bound.params element) tree.label.supplied row)
          (staffArguments.entry entity.label.path).presentItems rows := by
  obtain ⟨schema, spec, compiled, source, bound, hschema, hspec, hcompile, hinsert, hplain, hbind, _⟩ :=
    exists_plain "Employee" ["Name"] (fun _ => true) (by decide +kernel)
  have hbuild : (CompilerSetup.mk (some schema) default (some .exact)).build =
      .ok ⟨schema, default, .exact⟩ := rfl
  obtain ⟨p, entity, tree, _, _, _, _, _, hrows⟩ :=
    compile_plainRows hschema rfl hbuild hcompile hinsert hplain
  obtain ⟨rows, hinserts, hreads⟩ := (hrows staffArguments bound hbind).2.mpr (Or.inl (by decide))
  exact ⟨schema, spec, compiled, source, bound, hschema, hspec, hcompile, hplain, hbind, p, entity, tree,
    rows, hinserts, hreads⟩

/-- Two employees without a name are bound to a text that inserts one row. -/
theorem plainRows_lost_unnamed :
    (staffArguments.entry ⟨["Employees"]⟩).presentItems.length = 2 ∧
    ∃ schema spec compiled source bound, Schema.build staffDeclarations = .ok schema ∧
      (staffInsert "Unnamed").build staffShapes = .ok spec ∧
      (⟨schema, default, .exact⟩ : Compiler).compile spec = .ok compiled ∧ spec.operation = .insert ∧
      compiled.plan.batch = [.insert (.table "Employee") [] source] ∧
      compiled.bind staffArguments = .ok bound ∧
      ∀ rows, InsertsRows bound.sql "Employee" [] rows → rows.length = 1 := by
  refine ⟨by decide, ?_⟩
  obtain ⟨schema, spec, compiled, source, bound, hschema, hspec, hcompile, hinsert, hplain, hbind, htext⟩ :=
    exists_plain "Unnamed" [] (· == "INSERT INTO \"Employee\" DEFAULT VALUES;") (by decide +kernel)
  refine ⟨schema, spec, compiled, source, bound, hschema, hspec, hcompile, hinsert, hplain, hbind, ?_⟩
  intro rows hrows
  have hrender : Batch.render [.insert (.table "Employee") [] (.rows [])] .empty = .ok bound.sql := by
    rw [beq_iff_eq.mp htext]
    decide +kernel
  rw [(insertsRows_defaults hrender).mp hrows]
  rfl

end Compiler

end ShapeSql
