import ShapeSql.Proofs.Graph.Firsts
import ShapeSql.Proofs.Tree
import ShapeSql.Proofs.Value.Record

/-!
Forests written out as rows. Joins repeat what they join: a member has a row for every combination of
the rows below it, and an empty collection stands there as nulls. Grouping such rows by their keys finds
the members again, each with its own values and its collections in their order.
-/

namespace ShapeSql

/-- A member of a collection: the values of its columns, and the collections below it in the order of
the levels. -/
inductive Member where
  | node (cells : List Value) (nested : List (List Member))

/-- Members of one level. -/
abbrev Forest := List Member

namespace Member

def cells : Member → List Value
  | .node cells _ => cells

def nested : Member → List Forest
  | .node _ nested => nested

end Member

/-- A key of values that identify an entity, none of them null. -/
def RowKey.Present (key : RowKey) : Prop := ∀ v ∈ key.values, v.isPlain = true ∧ v ≠ .null

instance (key : RowKey) : Decidable key.Present := inferInstanceAs (Decidable (∀ v ∈ key.values, _))

namespace Level

/-- The values of cells, under the names of the columns. -/
def record (level : Level) (cells : List Value) : Record :=
  (level.columns.map LevelColumn.name).zip cells

/-- The key of a member. -/
def memberKey (level : Level) (m : Member) : RowKey := level.keyOf (level.record m.cells)

/-- Cells past those of the columns have no part in the record. -/
theorem record_append (level : Level) {cells : List Value}
    (h : cells.length = level.columns.length) (more : List Value) :
    level.record (cells ++ more) = level.record cells := by
  have hlength : (level.columns.map LevelColumn.name).length = cells.length := by
    rw [List.length_map, h]
  rw [record, record]
  calc
    (level.columns.map LevelColumn.name).zip (cells ++ more)
        = (level.columns.map LevelColumn.name ++ []).zip (cells ++ more) := by rw [List.append_nil]
    _ = (level.columns.map LevelColumn.name).zip cells := by
      rw [List.zip_append hlength, List.zip_nil_left, List.append_nil]

/-- A member is told from a row of nulls by its key. -/
theorem isAllNull_of_present {level : Level} (hkey : level.key ≠ []) {cells : List Value}
    (h : (level.keyOf (level.record cells)).Present) :
    Record.isAllNull (level.record cells) = false := by
  obtain ⟨name, names, hnames⟩ := List.exists_cons_of_ne_nil hkey
  have hfirst : ((Record.get? (level.record cells) name).getD .null) ≠ .null := by
    refine (h _ ?_).2
    rw [keyOf, hnames, List.map_cons]
    exact List.mem_cons_self
  cases hfound : Record.get? (level.record cells) name with
  | none =>
    rw [hfound] at hfirst
    exact absurd rfl hfirst
  | some v =>
    rw [hfound] at hfirst
    obtain ⟨member, hmember, rfl⟩ := Option.map_eq_some_iff.mp hfound
    rw [Record.isAllNull, List.all_eq_false]
    refine ⟨member, mem_of_findNamed hmember, ?_⟩
    intro hnull
    cases hvalue : member.2 with
    | null =>
      rw [hvalue] at hfirst
      exact hfirst rfl
    | _ =>
      rw [hvalue] at hnull
      cases hnull

theorem isAllNull_nulls (level : Level) (width : Nat) :
    Record.isAllNull (level.record (List.replicate width .null)) = true := by
  rw [Record.isAllNull, List.all_eq_true]
  intro member hmember
  have hcell := (List.of_mem_zip hmember).2
  rw [List.eq_of_mem_replicate hcell]
  rfl

/-- A level that tells its columns apart and has a key. -/
structure Sound (level : Level) : Prop where
  names : (level.columns.map LevelColumn.name).Nodup
  key : level.key ≠ []

end Level

namespace LevelTree

/-- The number of cells that a row has for a level and the levels below. -/
def width (t : LevelTree) : Nat := t.sources.length

/-- What a left join makes of rows: one of nulls where there are none. -/
def leftRows (width : Nat) : List (List Value) → List (List Value)
  | [] => [List.replicate width .null]
  | rows => rows

mutual

/-- The rows of a member: its own cells before every combination of the rows below it. -/
def expand : LevelTree → Member → List (List Value)
  | .node _ kids, m => (expandBelow kids m.nested).map (m.cells ++ ·)

/-- Every combination of the rows of collections, those of a later one changing faster. -/
def expandBelow : List LevelTree → List Forest → List (List Value)
  | [], _ => [[]]
  | _ :: _, [] => []
  | t :: ts, forest :: others =>
    (leftRows t.width (forest.flatMap (expand t))).flatMap fun row =>
      (expandBelow ts others).map (row ++ ·)

end

mutual

/-- The forest has a cell for each column of its levels, and the members of each collection have keys
of their own without nulls. -/
def Fits : LevelTree → Forest → Prop
  | .node level kids, forest =>
    (forest.map level.memberKey).Nodup ∧ ∀ m ∈ forest,
      m.cells.length = level.columns.length ∧ (level.memberKey m).Present ∧ FitsAll kids m.nested

def FitsAll : List LevelTree → List Forest → Prop
  | [], [] => True
  | t :: ts, forest :: others => Fits t forest ∧ FitsAll ts others
  | _, _ => False

end

mutual

def decidableFits : (t : LevelTree) → (forest : Forest) → Decidable (t.Fits forest)
  | .node _ kids, _ =>
    have : ∀ m : Member, Decidable (FitsAll kids m.nested) := fun m => decidableFitsAll kids m.nested
    inferInstanceAs (Decidable (_ ∧ ∀ m ∈ _, _ ∧ _ ∧ _))

def decidableFitsAll : (ts : List LevelTree) → (forests : List Forest) → Decidable (FitsAll ts forests)
  | [], [] => inferInstanceAs (Decidable True)
  | t :: ts, forest :: others =>
    have := decidableFits t forest
    have := decidableFitsAll ts others
    inferInstanceAs (Decidable (_ ∧ _))
  | [], _ :: _ => inferInstanceAs (Decidable False)
  | _ :: _, [] => inferInstanceAs (Decidable False)

end

instance (levels : LevelTree) : DecidablePred levels.Fits := decidableFits levels

/-- The rows of a forest as a result set with these columns. -/
def expanded (levels : LevelTree) (columns : List String) (forest : Forest) : Rows where
  columns
  rows := (forest.flatMap levels.expand).map fun row =>
    columns.map fun name => Rows.cell levels.sources row name
  widths := by
    intro row hrow
    obtain ⟨tuple, _, rfl⟩ := List.mem_map.mp hrow
    exact List.length_map _

mutual

/-- The entities stand for the members, one for one: with their values, and with what is nested in them
standing for the collections below. -/
def Stands : LevelTree → Forest → Entities → Prop
  | .node level kids, forest, entities =>
    List.Forall₂ (fun m e => e.values = level.record m.cells ∧ StandsBelow kids m.nested e.nested)
      forest entities

def StandsBelow : List LevelTree → List Forest → Nested → Prop
  | [], [], [] => True
  | t :: ts, forest :: others, (way, entities) :: nested =>
    way = t.label.way ∧ Stands t forest entities ∧ StandsBelow ts others nested
  | _, _, _ => False

end

/-- The cells that a row has for a level and the levels below. -/
def tuple (columns : List String) (t : LevelTree) (row : NumberedRow) : List Value :=
  t.sources.map (Rows.cell columns row.1)

/-- The cells that a row has for levels and those below them. -/
def tuples (columns : List String) (ts : List LevelTree) (row : NumberedRow) : List Value :=
  ts.flatMap fun t => t.tuple columns row

/-- Every level of the tree tells its columns apart and has a key. -/
def Sound (t : LevelTree) : Prop := ∀ level ∈ t.preorder, level.Sound


section Tuples

variable (columns : List String)

theorem sources_node (level : Level) (kids : List LevelTree) :
    sources (.node level kids) =
      level.columns.map LevelColumn.source ++ kids.flatMap sources := by
  rw [sources, Tree.preorder, List.flatMap_cons, Tree.preorderAll_eq_flatMap, List.flatMap_assoc]
  rfl

theorem tuple_node (level : Level) (kids : List LevelTree) (row : NumberedRow) :
    tuple columns (.node level kids) row =
      (level.columns.map fun c => Rows.cell columns row.1 c.source) ++ tuples columns kids row := by
  rw [tuple, sources_node, List.map_append, List.map_map, List.map_flatMap]
  rfl

theorem tuples_cons (t : LevelTree) (ts : List LevelTree) (row : NumberedRow) :
    tuples columns (t :: ts) row = t.tuple columns row ++ tuples columns ts row := rfl

@[simp] theorem length_tuple (t : LevelTree) (row : NumberedRow) :
    (t.tuple columns row).length = t.width := List.length_map _

/-- What a row has at a level is the record of its first cells. -/
theorem values_eq {level : Level} (h : level.Sound) (kids : List LevelTree) (row : NumberedRow) :
    level.values columns row.1 = level.record (tuple columns (.node level kids) row) := by
  have hmembers : (level.columns.map fun c => (c.name, Rows.cell columns row.1 c.source)) =
      level.record (level.columns.map fun c => Rows.cell columns row.1 c.source) := by
    rw [Level.record, List.zip_map']
  have hnames : ((level.record (level.columns.map fun c =>
      Rows.cell columns row.1 c.source)).map Prod.fst).Nodup := by
    rw [← hmembers, List.map_map]
    exact h.names
  rw [Level.values, tuple_node, Level.record_append level (List.length_map _), hmembers]
  exact Record.ofMembers_of_nodup hnames

end Tuples

section Rows

theorem leftRows_ne_nil (width : Nat) (rows : List (List Value)) : leftRows width rows ≠ [] := by
  cases rows with
  | nil => exact List.cons_ne_nil _ _
  | cons _ _ => exact List.cons_ne_nil _ _

theorem length_of_mem_leftRows {width : Nat} {rows : List (List Value)}
    (h : ∀ row ∈ rows, row.length = width) : ∀ row ∈ leftRows width rows, row.length = width := by
  cases rows with
  | nil => exact List.forall_mem_singleton.mpr (List.length_replicate ..)
  | cons _ _ => exact h

mutual

/-- A member has rows, and they have a cell for each column. -/
theorem expand_spec : ∀ (t : LevelTree) {m : Member} {forest : Forest}, t.Fits forest → m ∈ forest →
    t.expand m ≠ [] ∧ ∀ row ∈ t.expand m, row.length = t.width
  | .node level kids, m, forest, hfits, hm => by
    obtain ⟨hcells, _, hkids⟩ := hfits.2 m hm
    obtain ⟨hsome, hwidth⟩ := expandBelow_spec kids hkids
    rw [expand]
    refine ⟨fun hnil => hsome (List.map_eq_nil_iff.mp hnil), ?_⟩
    intro row hrow
    obtain ⟨below, hbelow, rfl⟩ := List.mem_map.mp hrow
    rw [List.length_append, hcells, hwidth below hbelow, width, sources_node, List.length_append,
      List.length_map]

theorem expandBelow_spec : ∀ (ts : List LevelTree) {forests : List Forest}, FitsAll ts forests →
    expandBelow ts forests ≠ [] ∧
      ∀ row ∈ expandBelow ts forests, row.length = (ts.flatMap sources).length
  | [], [], _ => by
    rw [expandBelow]
    exact ⟨List.cons_ne_nil _ _, List.forall_mem_singleton.mpr rfl⟩
  | t :: ts, forest :: others, ⟨hforest, hothers⟩ => by
    obtain ⟨hsome, hwidth⟩ := expandBelow_spec ts hothers
    have hfirst : ∀ row ∈ forest.flatMap t.expand, row.length = t.width := by
      intro row hrow
      obtain ⟨m, hm, hrow⟩ := List.mem_flatMap.mp hrow
      exact (expand_spec t hforest hm).2 row hrow
    rw [expandBelow]
    constructor
    · intro hnil
      rw [List.flatMap_eq_nil_iff] at hnil
      obtain ⟨row, hrow⟩ := List.exists_mem_of_ne_nil _ (leftRows_ne_nil t.width (forest.flatMap t.expand))
      exact hsome (List.map_eq_nil_iff.mp (hnil row hrow))
    · intro row hrow
      obtain ⟨first, hmem, hrow⟩ := List.mem_flatMap.mp hrow
      obtain ⟨rest, hrest, rfl⟩ := List.mem_map.mp hrow
      rw [List.length_append, length_of_mem_leftRows hfirst first hmem, hwidth rest hrest,
        List.flatMap_cons, List.length_append, width]

end

end Rows

section Recovery

variable {columns : List String}

/-- The key that a level finds in the cells of a row. -/
def cellsKey (level : Level) (cells : List Value) : RowKey := level.keyOf (level.record cells)

/-- Whether a level shows an entity in the cells of a row. -/
def cellsShow (level : Level) (isRoot : Bool) (cells : List Value) : Bool :=
  isRoot || !Record.isAllNull (level.record cells)

variable {level : Level} {kids : List LevelTree}

theorem rowKey_eq (h : level.Sound) (kids : List LevelTree) (row : NumberedRow) :
    level.rowKey columns row = cellsKey level (tuple columns (.node level kids) row) := by
  rw [Level.rowKey, values_eq columns h kids, cellsKey]

theorem shows_eq (h : level.Sound) (kids : List LevelTree) (isRoot : Bool) (row : NumberedRow) :
    level.shows columns isRoot row =
      cellsShow level isRoot (tuple columns (.node level kids) row) := by
  rw [Level.shows, values_eq columns h kids, cellsShow]

/-- The rows of a member start with its cells. -/
theorem record_of_mem_expand {m : Member} (hcells : m.cells.length = level.columns.length)
    {cells : List Value} (h : cells ∈ expand (.node level kids) m) :
    level.record cells = level.record m.cells := by
  rw [expand] at h
  obtain ⟨below, _, rfl⟩ := List.mem_map.mp h
  exact level.record_append hcells below

/-- Of the rows that a left join makes of a forest, those that show an entity are the forest's. -/
theorem filter_leftRows (h : level.Sound) {forest : Forest}
    (hfits : Fits (.node level kids) forest) :
    (leftRows (width (.node level kids)) (forest.flatMap (expand (.node level kids)))).filter
      (cellsShow level false) = forest.flatMap (expand (.node level kids)) := by
  have hshows : ∀ cells ∈ forest.flatMap (expand (.node level kids)),
      cellsShow level false cells = true := by
    intro cells hcells
    obtain ⟨m, hm, hcells⟩ := List.mem_flatMap.mp hcells
    obtain ⟨hlength, hpresent, _⟩ := hfits.2 m hm
    rw [cellsShow, record_of_mem_expand hlength hcells, Level.isAllNull_of_present h.key hpresent]
    rfl
  cases hrows : forest.flatMap (expand (.node level kids)) with
  | nil =>
    rw [leftRows, List.filter_cons_of_neg, List.filter_nil]
    rw [cellsShow, Level.isAllNull_nulls]
    simp
  | cons first rest =>
    rw [hrows] at hshows
    rw [leftRows]
    · exact List.filter_eq_self.mpr hshows
    · exact fun hnil => List.cons_ne_nil _ _ hnil

/-- Rows that show what a left join makes of a forest: those of them that show an entity show what the
forest's rows do. -/
theorem present_sameFirsts (t : LevelTree) (h : t.Sound) {forest : Forest} (hfits : t.Fits forest)
    {rows : List NumberedRow}
    (hrows : SameFirsts (rows.map (t.tuple columns)) (leftRows t.width (forest.flatMap t.expand))) :
    SameFirsts ((rows.filter (t.label.shows columns false)).map (t.tuple columns))
      (forest.flatMap t.expand) := by
  obtain ⟨level, kids⟩ := t
  have hlevel : level.Sound := h level List.mem_cons_self
  have hfiltered := hrows.filter (cellsShow level false)
  rw [filter_leftRows hlevel hfits, List.filter_map] at hfiltered
  have hshows : cellsShow level false ∘ tuple columns (.node level kids) =
      level.shows columns false :=
    funext fun row => (shows_eq hlevel kids false row).symm
  rw [hshows] at hfiltered
  exact hfiltered

theorem memberKey_of_mem_expand {forest : Forest} (hfits : Fits (.node level kids) forest) {m : Member}
    (hm : m ∈ forest) {cells : List Value} (hcells : cells ∈ expand (.node level kids) m) :
    cellsKey level cells = level.memberKey m := by
  rw [cellsKey, record_of_mem_expand (hfits.2 m hm).1 hcells, Level.memberKey]

/-- The rows that share the key of a member's row show, below it, what the member's rows show. -/
theorem sharing_sameFirsts (h : level.Sound) {forest : Forest}
    (hfits : Fits (.node level kids) forest) {present : List NumberedRow}
    (hrows : SameFirsts (present.map (tuple columns (.node level kids)))
      (forest.flatMap (expand (.node level kids)))) {m : Member} (hm : m ∈ forest)
    {first : NumberedRow}
    (hfirst : tuple columns (.node level kids) first ∈ expand (.node level kids) m) :
    SameFirsts ((level.sharing columns first present).map (tuples columns kids))
      (expandBelow kids m.nested) := by
  have hkey : level.rowKey columns first = level.memberKey m := by
    rw [rowKey_eq h kids, memberKey_of_mem_expand hfits hm hfirst]
  have hown : (level.sharing columns first present).map (tuple columns (.node level kids)) =
      (present.map (tuple columns (.node level kids))).filter
        (fun cells => decide (cellsKey level cells = level.memberKey m)) := by
    rw [Level.sharing, List.filter_map, hkey]
    congr 1
    apply List.filter_congr
    intro row _
    rw [Function.comp_apply, rowKey_eq h kids]
  have hmember : SameFirsts ((level.sharing columns first present).map
      (tuple columns (.node level kids))) (expand (.node level kids) m) := by
    have hfiltered := hrows.filter fun cells => decide (cellsKey level cells = level.memberKey m)
    rw [← hown, filter_flatMap_eq _ (fun n hn => fun cells => memberKey_of_mem_expand hfits hn) hfits.1
      hm] at hfiltered
    exact hfiltered
  have hdropped := hmember.map (List.drop level.columns.length)
  rw [expand, List.map_map, List.map_map] at hdropped
  have hleft : (List.drop level.columns.length ∘ tuple columns (.node level kids)) =
      tuples columns kids := by
    funext row
    rw [Function.comp_apply, tuple_node, List.drop_left' (List.length_map _)]
  have hright : (List.drop level.columns.length ∘ (m.cells ++ ·)) = id := by
    funext below
    rw [Function.comp_apply, List.drop_left' (hfits.2 m hm).1, id]
  rw [hleft, hright, List.map_id] at hdropped
  exact hdropped

mutual

/-- Grouping rows that show what the rows of a forest show finds its members. -/
theorem grouped_stands : ∀ (t : LevelTree) {isRoot : Bool} {rows : List NumberedRow}
    {forest : Forest}, t.Sound → t.Fits forest →
      SameFirsts ((rows.filter (t.label.shows columns isRoot)).map (t.tuple columns))
        (forest.flatMap t.expand) →
      t.Stands forest (t.grouped columns isRoot rows)
  | .node level kids, isRoot, rows, forest, hsound, hfits, hrows => by
    have hlevel : level.Sound := hsound level List.mem_cons_self
    have hkids : ∀ other ∈ Tree.preorderAll kids, other.Sound :=
      fun other hother => hsound other (List.mem_cons_of_mem _ hother)
    obtain ⟨present, hpresent⟩ : ∃ present, present = rows.filter (level.shows columns isRoot) :=
      ⟨_, rfl⟩
    rw [grouped_node, ← hpresent]
    have hrows : SameFirsts (present.map (tuple columns (.node level kids)))
        (forest.flatMap (expand (.node level kids))) := hpresent ▸ hrows
    have hfirsts : List.Forall₂ (fun m cells => cells ∈ expand (.node level kids) m) forest
        ((level.firsts columns present).map (tuple columns (.node level kids))) := by
      have hkeys : level.rowKey columns =
          fun row => cellsKey level (tuple columns (.node level kids) row) :=
        funext fun row => rowKey_eq hlevel kids row
      rw [Level.firsts, hkeys, ← firstsBy_map, firstsBy_congr _ hrows]
      exact firstsBy_flatMap _ (fun m hm cells => memberKey_of_mem_expand hfits hm) (fun m hm => (expand_spec _ hfits hm).1) hfits.1
    rw [List.forall₂_map_right_iff] at hfirsts
    rw [Stands, List.forall₂_map_right_iff]
    refine ((List.forall₂_and_left forest _).mpr ⟨fun m hm => hm, hfirsts⟩).imp ?_
    rintro m first ⟨hm, hcells⟩
    obtain ⟨hlength, _, hnested⟩ := hfits.2 m hm
    constructor
    · rw [← record_of_mem_expand hlength hcells, ← values_eq columns hlevel]
      rfl
    · refine groupedBelow_stands kids hkids hnested ?_
      exact sharing_sameFirsts hlevel hfits hrows hm hcells

theorem groupedBelow_stands : ∀ (ts : List LevelTree) {rows : List NumberedRow}
    {forests : List Forest}, (∀ level ∈ Tree.preorderAll ts, level.Sound) → FitsAll ts forests →
      SameFirsts (rows.map (tuples columns ts)) (expandBelow ts forests) →
      StandsBelow ts forests (groupedBelow columns ts rows)
  | [], rows, [], _, _, _ => trivial
  | t :: ts, rows, forest :: others, hsound, ⟨hforest, hothers⟩, hrows => by
    have ht : t.Sound := fun level hlevel => hsound level (List.mem_append_left _ hlevel)
    have hrest : ∀ level ∈ Tree.preorderAll ts, level.Sound :=
      fun level hlevel => hsound level (List.mem_append_right _ hlevel)
    have hwidth : ∀ cells ∈ leftRows t.width (forest.flatMap t.expand), cells.length = t.width := by
      apply length_of_mem_leftRows
      intro cells hcells
      obtain ⟨m, hm, hcells⟩ := List.mem_flatMap.mp hcells
      exact (expand_spec t hforest hm).2 cells hcells
    rw [expandBelow] at hrows
    have hstarts : SameFirsts (rows.map (t.tuple columns))
        (leftRows t.width (forest.flatMap t.expand)) := by
      have htaken := (hrows.map (List.take t.width)).trans
        (.take hwidth (expandBelow_spec ts hothers).1)
      rw [List.map_map] at htaken
      have hcells : List.take t.width ∘ tuples columns (t :: ts) = t.tuple columns := by
        funext row
        rw [Function.comp_apply, tuples_cons, List.take_left' (length_tuple columns t row)]
      rw [hcells] at htaken
      exact htaken
    have hends : SameFirsts (rows.map (tuples columns ts)) (expandBelow ts others) := by
      have hdropped := (hrows.map (List.drop t.width)).trans (.drop hwidth (leftRows_ne_nil _ _))
      rw [List.map_map] at hdropped
      have hcells : List.drop t.width ∘ tuples columns (t :: ts) = tuples columns ts := by
        funext row
        rw [Function.comp_apply, tuples_cons, List.drop_left' (length_tuple columns t row)]
      rw [hcells] at hdropped
      exact hdropped
    rw [groupedBelow]
    exact ⟨rfl, grouped_stands t ht hforest (present_sameFirsts t ht hforest hstarts),
      groupedBelow_stands ts hrest hothers hends⟩

end

end Recovery

section Cells

/-- A row that has a cell for each column name has it under that name. -/
theorem cell_map {columns : List String} (f : String → Value) {name : String} (h : name ∈ columns) :
    Rows.cell columns (columns.map f) name = f name := by
  have hfind : (columns.zip (columns.map f)).find? (fun entry => entry.1 == name) =
      some (name, f name) := by
    induction columns with
    | nil => cases h
    | cons other rest ih =>
      rw [List.map_cons, List.zip_cons_cons, List.find?_cons]
      by_cases hname : other = name
      · rw [hname, beq_self_eq_true]
      · rw [beq_false_of_ne hname]
        exact ih ((List.mem_cons.mp h).resolve_left (Ne.symm hname))
  rw [Rows.cell, hfind]
  rfl

theorem cell_cons (column : String) (columns : List String) (value : Value) (row : List Value)
    (name : String) : Rows.cell (column :: columns) (value :: row) name =
      if column = name then value else Rows.cell columns row name := by
  rw [Rows.cell, List.zip_cons_cons, List.find?_cons]
  by_cases hname : column = name
  · rw [if_pos hname, hname, beq_self_eq_true]
    rfl
  · rw [if_neg hname, beq_false_of_ne hname]
    rfl

/-- The cells under distinct column names are those of the row. -/
theorem map_cell {columns : List String} (h : columns.Nodup) {row : List Value}
    (hlength : row.length = columns.length) : columns.map (Rows.cell columns row) = row := by
  induction columns generalizing row with
  | nil => exact (List.length_eq_zero_iff.mp hlength).symm
  | cons column rest ih =>
    rw [List.nodup_cons] at h
    cases row with
    | nil => cases hlength
    | cons value row =>
      have hrest : rest.map (Rows.cell (column :: rest) (value :: row)) =
          rest.map (Rows.cell rest row) := by
        apply List.map_congr_left
        intro name hname
        rw [cell_cons, if_neg]
        rintro rfl
        exact h.1 hname
      rw [List.map_cons, cell_cons, if_pos rfl, hrest, ih h.2 (Nat.succ.inj hlength)]

variable {columns : List String} {levels : LevelTree} {forest : Forest}

/-- The rows of a forest are read as they were written. -/
theorem tuples_expanded (hsources : levels.sources.Nodup)
    (hcolumns : ∀ name ∈ levels.sources, name ∈ columns) (hfits : levels.Fits forest) :
    ((levels.expanded columns forest).rows.zipIdx).map (levels.tuple columns) =
      forest.flatMap levels.expand := by
  have hread : ∀ row ∈ forest.flatMap levels.expand,
      levels.sources.map (Rows.cell columns (columns.map (Rows.cell levels.sources row))) = row := by
    intro row hrow
    obtain ⟨m, hm, hrow⟩ := List.mem_flatMap.mp hrow
    have hcells : levels.sources.map
        (Rows.cell columns (columns.map (Rows.cell levels.sources row))) =
          levels.sources.map (Rows.cell levels.sources row) :=
      List.map_congr_left fun name hname => cell_map _ (hcolumns name hname)
    rw [hcells, map_cell hsources ((expand_spec levels hfits hm).2 row hrow)]
  have hnumbered : levels.tuple columns =
      (fun row : List Value => levels.sources.map (Rows.cell columns row)) ∘ Prod.fst := rfl
  rw [hnumbered, ← List.map_map, List.zipIdx_map_fst]
  rw [expanded, List.map_map]
  exact (List.map_congr_left hread).trans (List.map_id _)

end Cells

section Plain

variable {columns : List String}

/-- Cells that are all null make a plain key at every level. -/
theorem plain_of_nulls (t : LevelTree) (ht : t.Sound) {row : NumberedRow}
    (hnull : ∀ value ∈ t.tuple columns row, value = .null) :
    ∀ level ∈ t.preorder, (level.rowKey columns row).IsPlain := by
  intro level hlevel
  have hcells : ∀ member ∈ level.values columns row.1, member.2 = .null := by
    intro member hmember
    rw [Level.values, Record.ofMembers_of_nodup] at hmember
    · obtain ⟨column, hcolumn, rfl⟩ := List.mem_map.mp hmember
      apply hnull
      exact List.mem_map_of_mem
        (List.mem_flatMap.mpr ⟨level, hlevel, List.mem_map_of_mem hcolumn⟩)
    · rw [List.map_map]
      exact (ht level hlevel).names
  intro value hvalue
  obtain ⟨name, _, rfl⟩ := List.mem_map.mp hvalue
  cases hfound : Record.get? (level.values columns row.1) name with
  | none => rfl
  | some found =>
    obtain ⟨member, hmember, rfl⟩ := Option.map_eq_some_iff.mp hfound
    rw [Option.getD_some, hcells member (mem_of_findNamed hmember)]
    rfl

mutual

/-- A row of a forest, or of nulls in its place, has plain keys. -/
theorem plain_of_tuple : ∀ (t : LevelTree) {forest : Forest} {row : NumberedRow}, t.Sound →
    t.Fits forest → t.tuple columns row ∈ leftRows t.width (forest.flatMap t.expand) →
      ∀ level ∈ t.preorder, (level.rowKey columns row).IsPlain
  | .node level kids, forest, row, hsound, hfits, hrow => by
    cases hrows : forest.flatMap (expand (.node level kids)) with
    | nil =>
      rw [hrows, leftRows, List.mem_singleton] at hrow
      apply plain_of_nulls _ hsound
      rw [hrow]
      exact fun value hvalue => List.eq_of_mem_replicate hvalue
    | cons first rest =>
      rw [hrows, leftRows] at hrow
      · rw [← hrows] at hrow
        obtain ⟨m, hm, hcells⟩ := List.mem_flatMap.mp hrow
        obtain ⟨hlength, hpresent, hnested⟩ := hfits.2 m hm
        have hlevel : level.Sound := hsound level List.mem_cons_self
        have hkey : level.rowKey columns row = level.memberKey m := by
          rw [rowKey_eq hlevel kids, memberKey_of_mem_expand hfits hm hcells]
        have hbelow : tuples columns kids row ∈ expandBelow kids m.nested := by
          rw [expand] at hcells
          obtain ⟨below, hbelow, hsplit⟩ := List.mem_map.mp hcells
          rw [tuple_node] at hsplit
          rw [← List.append_inj_right hsplit (by rw [hlength, List.length_map])]
          exact hbelow
        intro other hother
        rcases List.mem_cons.mp hother with rfl | hother
        · rw [hkey]
          exact fun value hvalue => (hpresent value hvalue).1
        · exact plain_of_tuples kids
            (fun l hl => hsound l (List.mem_cons_of_mem _ hl)) hnested hbelow other hother
      · exact fun hnil => List.cons_ne_nil _ _ hnil

theorem plain_of_tuples : ∀ (ts : List LevelTree) {forests : List Forest} {row : NumberedRow},
    (∀ level ∈ Tree.preorderAll ts, level.Sound) → FitsAll ts forests →
      tuples columns ts row ∈ expandBelow ts forests →
        ∀ level ∈ Tree.preorderAll ts, (level.rowKey columns row).IsPlain
  | [], _, _, _, _, _ => nofun
  | t :: ts, forest :: others, row, hsound, ⟨hforest, hothers⟩, hrow => by
    rw [expandBelow] at hrow
    obtain ⟨first, hfirst, hrow⟩ := List.mem_flatMap.mp hrow
    obtain ⟨rest, hrest, hsplit⟩ := List.mem_map.mp hrow
    have hlength : first.length = (t.tuple columns row).length := by
      rw [length_tuple]
      refine length_of_mem_leftRows ?_ first hfirst
      intro cells hcells
      obtain ⟨m, hm, hcells⟩ := List.mem_flatMap.mp hcells
      exact (expand_spec t hforest hm).2 cells hcells
    rw [tuples_cons] at hsplit
    obtain ⟨rfl, rfl⟩ := List.append_inj hsplit hlength
    intro level hlevel
    rcases List.mem_append.mp hlevel with hlevel | hlevel
    · exact plain_of_tuple t (fun l hl => hsound l (List.mem_append_left _ hl)) hforest hfirst
        level hlevel
    · exact plain_of_tuples ts (fun l hl => hsound l (List.mem_append_right _ hl)) hothers hrest
        level hlevel

end

end Plain

/-- The rows of a forest are collected into entities that stand for its members. -/
theorem entities_expanded (levels : LevelTree) (hsound : levels.Sound) (hapart : levels.Apart)
    (hsources : levels.sources.Nodup) {columns : List String}
    (hcolumns : ∀ name ∈ levels.sources, name ∈ columns) {forest : Forest}
    (hfits : levels.Fits forest) :
    levels.Stands forest (levels.entities (levels.expanded columns forest)) := by
  have hread := @tuples_expanded columns levels forest hsources hcolumns hfits
  have hplain : levels.PlainKeys columns (levels.expanded columns forest).rows.zipIdx := by
    intro level hlevel row hrow
    have hcells : levels.tuple columns row ∈ forest.flatMap levels.expand :=
      hread ▸ List.mem_map_of_mem hrow
    refine plain_of_tuple levels hsound hfits ?_ level hlevel
    obtain ⟨first, rest, hrows⟩ := List.exists_cons_of_ne_nil (List.ne_nil_of_mem hcells)
    rw [hrows] at hcells ⊢
    exact hcells
  have hall : (levels.expanded columns forest).rows.zipIdx.filter
      (levels.label.shows columns true) = (levels.expanded columns forest).rows.zipIdx :=
    List.filter_eq_self.mpr fun _ _ => rfl
  rw [entities]
  rw [show (levels.expanded columns forest).columns = columns from rfl]
  rw [foldl_addRow levels columns _ hapart hplain]
  refine grouped_stands levels hsound hfits ?_
  rw [hall, hread]
  exact .refl _

end LevelTree

end ShapeSql
