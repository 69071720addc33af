import ShapeSql.Proofs.Bind.Elements
import ShapeSql.Proofs.Bind.Mentions
import ShapeSql.Proofs.Bind.Scoped
import ShapeSql.Proofs.Plan.WriteDependencies

namespace ShapeSql

open Sql

/-- What supplies the cells of a column. -/
def WrittenColumn.rowColumn (c : WrittenColumn) : RowColumn :=
  match c.source with
  | some source => .field source
  | none => .null

/-- The cell reads a parameter that has the value of the element's field, or is null where no field
supplies the column. -/
def WrittenColumn.Carries (params : Params) (element : Value) (c : WrittenColumn) (cell : Expr) : Prop :=
  match c.source with
  | some field => ∃ name, cell = .param name ∧ params.getExact? name = some (element.entry field)
  | none => cell = .null

namespace WrittenTable

/-- The numbers at the start of a row: its own and, below another table, that of its owner. -/
def numberColumns (t : WrittenTable) : List String :=
  indexColumn :: if t.link.isSome then [parentColumn] else []

/-- The columns that the rows of a table are filled in. -/
def lookupColumns (t : WrittenTable) : List String :=
  t.numberColumns ++ t.columns.map fun c => c.column.name

def rowsSource (t : WrittenTable) (base : String) : RowsSource where
  names := .derived base
  levels := t.levels
  columns := .index :: ((if t.link.isSome then [.parentIndex] else [])
    ++ t.columns.map WrittenColumn.rowColumn)
  required := !t.link.isSome

/-- The row of an element: as many cells as there are columns, its number first, and after the numbers a
cell for each written column. -/
structure RowOf (params : Params) (t : WrittenTable) (number : Nat) (element : Value)
    (row : List Expr) : Prop where
  width : row.length = t.lookupColumns.length
  index : row[0]? = some (.int (Int64.ofNat number))
  fields : List.Forall₂ (WrittenColumn.Carries params element) t.columns
    (row.drop t.numberColumns.length)

end WrittenTable

/-- A table, the base that the parameters of its rows are named by, and the hole for the rows. -/
structure LookupFill where
  table : WrittenTable
  base : String
  hole : HoleId

namespace LookupFill

def statement (f : LookupFill) : Statement :=
  .insert (.tableVar f.table.lookup) f.table.lookupColumns (.hole f.hole)

def rule (entity : Path) (f : LookupFill) : HoleRule := ⟨f.hole, entity, .rows (f.table.rowsSource f.base)⟩

/-- The cells of the rows with their parameters. -/
def cells (value : Value) (f : LookupFill) : List (List (Expr × List (String × Value))) :=
  ((f.table.rowsSource f.base).elements value.presentItems).zipIdx.map fun (element, position) =>
    (f.table.rowsSource f.base).row element position

end LookupFill

namespace Planner

variable {d d' : Draft} {entity : Path}

theorem fillLookup_eq {t : WrittenTable} {st : Statement}
    (hrun : (fillLookup t entity).run d = .ok (st, d')) :
    ∃ f : LookupFill, f.table = t ∧ st = f.statement ∧ d'.rules = d.rules ++ [f.rule entity] ∧
      lowerAscii f.base ∉ d.names.taken ∧ d'.names.taken = lowerAscii f.base :: d.names.taken := by
  obtain ⟨base, between, hbase, hole, hhole, rfl⟩ := fillLookup_inv hrun
  cases hbase
  cases hhole
  have hfree := Names.unused_isFreeBase d.names s!"n{t.index}"
  exact ⟨⟨t, _, _⟩, rfl, rfl, rfl,
    ((Names.isFree_iff _ _).mp ((Names.isFreeBase_iff _ _).mp hfree).1).1, rfl⟩

/-- Every table is filled by a rule of its own, under a base that no other has. -/
theorem fillLookups_eq {tables : List WrittenTable} {filled : Batch}
    (hrun : (tables.mapM fun t => fillLookup t entity).run d = .ok (filled, d')) :
    ∃ fills : List LookupFill, fills.map LookupFill.table = tables ∧
      filled = fills.map LookupFill.statement ∧
      d'.rules = d.rules ++ fills.map (LookupFill.rule entity) ∧
      (fills.map LookupFill.base).Nodup ∧ ∀ f ∈ fills, lowerAscii f.base ∉ d.names.taken := by
  induction tables generalizing d filled with
  | nil =>
    rw [List.mapM_nil, run_pure_ok] at hrun
    obtain ⟨rfl, rfl⟩ := hrun
    exact ⟨[], rfl, rfl, (List.append_nil _).symm, List.nodup_nil, nofun⟩
  | cons t tables ih =>
    rw [List.mapM_cons] at hrun
    simp only [run_bind_ok, run_pure_ok] at hrun
    obtain ⟨st, between, hst, others, after, hothers, rfl, rfl⟩ := hrun
    obtain ⟨f, rfl, rfl, hrule, hnew, htaken⟩ := fillLookup_eq hst
    obtain ⟨fills, rfl, rfl, hrules, hnodup, hlater⟩ := ih hothers
    rw [htaken] at hlater
    refine ⟨f :: fills, rfl, rfl, ?_, ?_, ?_⟩
    · rw [hrules, hrule, List.append_assoc]
      rfl
    · rw [List.map_cons, List.nodup_cons]
      refine ⟨fun hmem => ?_, hnodup⟩
      obtain ⟨g, hg, hsame⟩ := List.mem_map.mp hmem
      exact hlater g hg (hsame ▸ List.mem_cons_self)
    · exact List.forall_mem_cons.mpr
        ⟨hnew, fun g hg htaken => hlater g hg (List.mem_cons_of_mem _ htaken)⟩

end Planner

section CellNames

/-- A text with digits at its end can be taken apart in one way before the digits. -/
theorem append_digits_inj {xs ys : List Char} {mark : Char} {i j : Nat} (hmark : mark.isDigit = false)
    (h : xs ++ mark :: digits i = ys ++ mark :: digits j) : xs = ys ∧ i = j := by
  have hall : ∀ k, (digits k).all Char.isDigit = true :=
    fun k => Names.all_isDigit_of_isDigits (isDigits_digits k)
  obtain ⟨hstems, -, hdigits⟩ := Names.append_mark_inj hmark hmark (hall i) (hall j) h
  exact ⟨hstems, digits_injective hdigits⟩

/-- The name of a cell tells the base, the row and the column. -/
theorem cellName_inj {base base' : String} {row row' column column' : Nat}
    (h : RowsSource.cellName (.derived base) row column =
      RowsSource.cellName (.derived base') row' column') :
    base = base' ∧ row = row' ∧ column = column' := by
  have htext : ∀ (base : String) (row column : Nat),
      (RowsSource.cellName (.derived base) row column).toList =
        (base.toList ++ ['_'] ++ 'r' :: digits row ++ ['_']) ++ 'c' :: digits column := by
    intro base row column
    change (base ++ "_r" ++ Nat.repr row ++ "_c" ++ Nat.repr column).toList = _
    simp only [String.toList_append, Nat.toList_repr, List.append_assoc]
    rfl
  have hlists := congrArg String.toList h
  rw [htext, htext] at hlists
  obtain ⟨hrows, hcolumn⟩ := append_digits_inj (by decide) hlists
  obtain ⟨hbases, hrow⟩ := append_digits_inj (by decide) (List.append_cancel_right hrows)
  exact ⟨String.toList_injective (List.append_cancel_right hbases), hrow, hcolumn⟩

end CellNames

section Parameters

namespace RowsSource

/-- The parameter of a cell is named by the place of the cell. -/
theorem name_of_mem_cell {names : RowNames} {number : Nat} {element : Element} {place : RowColumn × Nat}
    {m : String × Value} (h : m ∈ (cell names number element place).2) :
    m.1 = cellName names number place.2 := by
  obtain ⟨column, i⟩ := place
  cases column with
  | index | parentIndex | null => cases h
  | field path =>
    rw [cell, List.mem_singleton] at h
    rw [h]

theorem cell_distinct (names : RowNames) (number : Nat) (element : Element) (place : RowColumn × Nat) :
    (cell names number element place).2.Pairwise fun m n => m.1 ≠ n.1 := by
  obtain ⟨column, i⟩ := place
  cases column with
  | index | parentIndex | null => exact .nil
  | field path => exact List.pairwise_singleton _ _

end RowsSource

theorem zipIdx_apart {α : Type} (items : List α) : items.zipIdx.Pairwise fun p q => p.2 ≠ q.2 := by
  apply List.pairwise_map.mp
  rw [List.zipIdx_map_snd]
  exact List.nodup_range'

namespace LookupFill

variable {value : Value} {fills : List LookupFill} {f : LookupFill} {m : String × Value}

/-- The parameters of all rows. -/
def added (value : Value) (f : LookupFill) : List (String × Value) :=
  (f.cells value).flatMap (·.flatMap Prod.snd)

/-- What a rule adds is named by its base, and the row and the column of a cell. -/
theorem name_of_mem_added (h : m ∈ f.added value) :
    ∃ row column, m.1 = RowsSource.cellName (.derived f.base) row column := by
  obtain ⟨row, hrow, hm⟩ := List.mem_flatMap.mp h
  obtain ⟨⟨element, number⟩, _, rfl⟩ := List.mem_map.mp hrow
  obtain ⟨cell, hcell, hm⟩ := List.mem_flatMap.mp hm
  obtain ⟨place, _, rfl⟩ := List.mem_map.mp hcell
  exact ⟨number, place.2, RowsSource.name_of_mem_cell hm⟩

theorem added_distinct (value : Value) (f : LookupFill) :
    (f.added value).Pairwise fun m n => m.1 ≠ n.1 := by
  rw [added, List.pairwise_flatMap, cells, List.pairwise_map]
  constructor
  · intro row hrow
    obtain ⟨⟨element, number⟩, _, rfl⟩ := List.mem_map.mp hrow
    show List.Pairwise _ (((f.table.rowsSource f.base).row element number).flatMap Prod.snd)
    rw [List.pairwise_flatMap, RowsSource.row, List.pairwise_map]
    constructor
    · intro cell hcell
      obtain ⟨place, _, rfl⟩ := List.mem_map.mp hcell
      exact RowsSource.cell_distinct _ _ _ place
    · refine (zipIdx_apart _).imp fun happart m hm n hn hsame => ?_
      rw [RowsSource.name_of_mem_cell hm, RowsSource.name_of_mem_cell hn] at hsame
      exact happart (cellName_inj hsame).2.2
  · refine (zipIdx_apart _).imp fun happart m hm n hn hsame => ?_
    obtain ⟨_, hcell, hm⟩ := List.mem_flatMap.mp hm
    obtain ⟨_, _, rfl⟩ := List.mem_map.mp hcell
    obtain ⟨_, hcell, hn⟩ := List.mem_flatMap.mp hn
    obtain ⟨_, _, rfl⟩ := List.mem_map.mp hcell
    rw [RowsSource.name_of_mem_cell hm, RowsSource.name_of_mem_cell hn] at hsame
    exact happart (cellName_inj hsame).2.1

/-- No two parameters have one name, whatever the rules that add them. -/
theorem nodup_added (value : Value) (hbases : (fills.map base).Nodup) :
    ((fills.flatMap (added value)).map Prod.fst).Nodup := by
  rw [List.Nodup, List.pairwise_map, List.pairwise_flatMap]
  refine ⟨fun f _ => f.added_distinct value, (List.pairwise_map.mp hbases).imp ?_⟩
  intro f g hdiffer m hm n hn hsame
  obtain ⟨_, _, hfirst⟩ := name_of_mem_added hm
  obtain ⟨_, _, hsecond⟩ := name_of_mem_added hn
  rw [hfirst, hsecond] at hsame
  exact hdiffer (cellName_inj hsame).1

/-- The rule of a table makes rows of the elements, with their parameters. -/
theorem filling_eq {s : Schema} {entity : Path} {g : Filling}
    (h : (f.rule entity).fill s value = .ok g) : g = RowsSource.fillingOf (f.cells value) := by
  exact (RowsSource.fill_ok_iff.mp h).2.2

end LookupFill

namespace Binding

variable {s : Schema} {args : Value}

/-- The parameters that the rules add, one rule after the other. -/
theorem ofRules_added {rules : List HoleRule} {b : Binding} (h : ofRules s rules args = .ok b) :
    ∃ fillings, List.Forall₂ (fun rule f => rule.fill s (args.entry rule.path) = .ok f) rules fillings ∧
      b.added = Record.ofMembers (fillings.flatMap Filling.added) := by
  have hfold : ∀ (rules : List HoleRule) (start : Binding), rules.foldlM (step s args) start = .ok b →
      ∃ fillings, List.Forall₂ (fun rule f => rule.fill s (args.entry rule.path) = .ok f) rules fillings ∧
        b.added = (fillings.flatMap Filling.added).foldl
          (fun params m => Record.insert params m.1 m.2) start.added := by
    intro rules
    induction rules with
    | nil =>
      intro start h
      cases h
      exact ⟨[], .nil, rfl⟩
    | cons rule rules ih =>
      intro start h
      rw [List.foldlM_cons] at h
      obtain ⟨next, hnext, h⟩ := except_bind_ok.mp h
      obtain ⟨f, hf, hnext⟩ := except_bind_ok.mp hnext
      obtain ⟨subs, _, hnext⟩ := except_bind_ok.mp hnext
      cases hnext
      obtain ⟨fillings, hfillings, hadded⟩ := ih _ h
      have hfill : rule.fill s (args.entry rule.path) = .ok f := by
        cases hfilled : rule.fill s (args.entry rule.path) with
        | error e =>
          rw [hfilled] at hf
          cases hf
        | ok g =>
          rw [hfilled] at hf
          cases hf
          rfl
      refine ⟨f :: fillings, .cons hfill hfillings, ?_⟩
      rw [hadded, List.flatMap_cons, List.foldl_append]
  exact hfold rules default h

/-- What is appended is there afterwards, and so is what was there before. -/
theorem append_finds {added : List (String × Value)} {bound params : Params}
    (h : append bound added = .ok params) :
    (∀ name value, bound.getExact? name = some value → params.getExact? name = some value) ∧
      ∀ m ∈ added, params.getExact? m.1 = some m.2 := by
  induction added generalizing bound with
  | nil =>
    cases h
    exact ⟨fun _ _ => id, nofun⟩
  | cons m added ih =>
    obtain ⟨name, value⟩ := m
    rw [append] at h
    split at h
    · cases h
    · rename_i hnew
      obtain ⟨hkept, hadded⟩ := ih h
      rw [Option.not_isSome_iff_eq_none, Record.getExact?, Option.map_eq_none_iff] at hnew
      refine ⟨fun other old hold => hkept other old ?_, List.forall_mem_cons.mpr ⟨?_, hadded⟩⟩
      · obtain ⟨found, hfound, rfl⟩ := Option.map_eq_some_iff.mp hold
        rw [Record.getExact?, List.find?_append, hfound]
        rfl
      · apply hkept
        rw [Record.getExact?, List.find?_append, hnew, Option.none_or, List.find?_singleton,
          if_pos (beq_self_eq_true name)]
        rfl

end Binding

/-- What a substitution consists of. -/
theorem Plan.substitution_ok {plan : Plan} {s : Schema} {args : Value} {subs : Substitution}
    {params : Params} (h : plan.substitution s args = .ok (subs, params)) :
    ∃ b declared, Binding.ofRules s plan.rules args = .ok b ∧ b.subs = subs ∧
      Binding.append declared b.added = .ok params := by
  unfold Plan.substitution at h
  obtain ⟨b, hb, h⟩ := except_bind_ok.mp h
  refine ⟨b, ?_⟩
  split at h
  · cases h
  · obtain ⟨declared, _, h⟩ := except_bind_ok.mp h
    obtain ⟨appended, happend, h⟩ := except_bind_ok.mp h
    cases h
    refine ⟨declared, hb, rfl, ?_⟩
    cases happended : Binding.append declared b.added with
    | error fault =>
      rw [happended] at happend
      cases happend
    | ok found =>
      rw [happended] at happend
      cases happend
      rfl

/-- Rows of all tables are bound to their holes, and each of their parameters keeps its value. -/
theorem Plan.rows_bound {plan : Plan} (hplan : plan.Sound) {s : Schema} {args : Value} {entity : Path}
    {fills : List LookupFill} (hrules : plan.rules = fills.map (LookupFill.rule entity))
    (hbases : (fills.map LookupFill.base).Nodup) {subs : Substitution} {params : Params}
    (h : plan.substitution s args = .ok (subs, params)) :
    ∀ f ∈ fills, subs.find? f.hole =
        some (.rows ((f.cells (args.entry entity)).map (·.map Prod.fst))) ∧
      ∀ m ∈ f.added (args.entry entity), params.getExact? m.1 = some m.2 := by
  obtain ⟨b, declared, hb, rfl, happend⟩ := Plan.substitution_ok h
  have hfilled : ∀ f ∈ fills, b.subs.find? f.hole =
      some (.rows ((f.cells (args.entry entity)).map (·.map Prod.fst))) := by
    intro f hf
    rcases Binding.ofRules_binds s args hplan.layered hplan.fits with ⟨e, he⟩ | ⟨b', hb', hbinds⟩
    · rw [hb] at he
      cases he
    · rw [hb] at hb'
      cases hb'
      obtain ⟨g, hg, hfound⟩ := hbinds.filled (f.rule entity) (hrules ▸ List.mem_map_of_mem hf)
      rw [LookupFill.filling_eq hg] at hfound
      exact hfound
  obtain ⟨fillings, hfillings, hadded⟩ := Binding.ofRules_added hb
  have hfillings : fillings.map Filling.added = fills.map (LookupFill.added (args.entry entity)) := by
    rw [hrules, List.forall₂_map_left_iff] at hfillings
    clear hrules hbases hfilled hadded
    induction hfillings with
    | nil => rfl
    | cons hfirst _ ih =>
      rw [List.map_cons, List.map_cons, ih, LookupFill.filling_eq hfirst]
      rfl
  have hmembers : b.added = fills.flatMap (LookupFill.added (args.entry entity)) := by
    rw [hadded, List.flatMap_def, hfillings, ← List.flatMap_def]
    exact Record.ofMembers_of_nodup (LookupFill.nodup_added _ hbases)
  intro f hf
  refine ⟨hfilled f hf, fun m hm => (Binding.append_finds happend).2 m ?_⟩
  rw [hmembers]
  exact List.mem_flatMap.mpr ⟨f, hf, hm⟩

end Parameters

section Rows

namespace RowsSource

/-- The number of the owner, null where there is none. -/
def ownerCell (e : Element) : Expr :=
  match e.owner with
  | some owner => .int (Int64.ofNat owner)
  | none => .null

theorem exprs_row (t : WrittenTable) (base : String) (e : Element) (number : Nat) :
    ((t.rowsSource base).row e number).map Prod.fst =
      (.int (Int64.ofNat number) :: if t.link.isSome then [ownerCell e] else []) ++
        ((t.columns.map WrittenColumn.rowColumn).zipIdx t.numberColumns.length).map fun place =>
          (cell (.derived base) number e place).1 := by
  rw [row, List.map_map, WrittenTable.rowsSource, List.zipIdx_cons, List.map_cons, List.zipIdx_append,
    List.map_append, WrittenTable.numberColumns]
  split
  · rfl
  · rfl

theorem carries_cell {params : Params} {names : RowNames} {number k : Nat} {e : Element}
    {c : WrittenColumn} (h : ∀ m ∈ (cell names number e (c.rowColumn, k)).2,
      params.getExact? m.1 = some m.2) :
    c.Carries params e.value (cell names number e (c.rowColumn, k)).1 := by
  obtain ⟨column, source⟩ := c
  cases source with
  | none => rfl
  | some field => exact ⟨_, rfl, h _ (List.mem_singleton.mpr rfl)⟩

theorem carries_cells {params : Params} {names : RowNames} {number : Nat} {e : Element}
    (columns : List WrittenColumn) (k : Nat)
    (h : ∀ place ∈ (columns.map WrittenColumn.rowColumn).zipIdx k, ∀ m ∈ (cell names number e place).2,
      params.getExact? m.1 = some m.2) :
    List.Forall₂ (WrittenColumn.Carries params e.value) columns
      (((columns.map WrittenColumn.rowColumn).zipIdx k).map fun place =>
        (cell names number e place).1) := by
  induction columns generalizing k with
  | nil => exact .nil
  | cons c columns ih =>
    rw [List.map_cons, List.zipIdx_cons, List.forall_mem_cons] at h
    exact .cons (carries_cell h.1) (ih (k + 1) h.2)

end RowsSource

namespace LookupFill

variable {value element : Value} {f : LookupFill} {params : Params} {address : Address} {i : Nat}

/-- What the hole of a table is bound to. -/
def rows (value : Value) (f : LookupFill) : List (List Expr) := (f.cells value).map (·.map Prod.fst)

theorem length_rows (value : Value) (f : LookupFill) :
    (f.rows value).length = (Value.elementsAlong f.table.levels value).length := by
  rw [rows, cells, List.length_map, List.length_map, List.length_zipIdx]
  exact (RowsSource.owned_elements value f.table.levels).length_eq.symm

/-- The row of an element stands at the place of the element. -/
theorem getElem?_cells (h : (Value.elementsAlong f.table.levels value)[i]? = some (address, element)) :
    ∃ e, RowsSource.Owned value f.table.levels (address, element) e ∧
      (f.cells value)[i]? = some ((f.table.rowsSource f.base).row e i) := by
  obtain ⟨e, he, howned⟩ := getElem?_of_forall₂ (RowsSource.owned_elements value f.table.levels) h
  refine ⟨e, howned, ?_⟩
  have hfound : ((f.table.rowsSource f.base).elements value.presentItems)[i]? = some e := he
  rw [cells, List.getElem?_map, List.getElem?_zipIdx, hfound, Option.map_some, Option.map_some,
    Nat.zero_add]

theorem rowOf (hparams : ∀ m ∈ f.added value, params.getExact? m.1 = some m.2) {row : List Expr}
    (h : (Value.elementsAlong f.table.levels value)[i]? = some (address, element))
    (hrow : (f.rows value)[i]? = some row) : f.table.RowOf params i element row := by
  obtain ⟨e, howned, hcells⟩ := getElem?_cells h
  rw [rows, List.getElem?_map, hcells, Option.map_some, Option.some.injEq,
    RowsSource.exprs_row] at hrow
  have hnumbers : ((Expr.int (Int64.ofNat i)) ::
      if f.table.link.isSome then [RowsSource.ownerCell e] else []).length =
        f.table.numberColumns.length := by
    rw [WrittenTable.numberColumns]
    split
    · rfl
    · rfl
  have hvalue : e.value = element := howned.value
  have hfields : List.Forall₂ (WrittenColumn.Carries params element) f.table.columns
      (((f.table.columns.map WrittenColumn.rowColumn).zipIdx f.table.numberColumns.length).map
        fun place => (RowsSource.cell (.derived f.base) i e place).1) := by
    rw [← hvalue]
    refine RowsSource.carries_cells _ _ fun place hplace m hm => hparams m ?_
    refine List.mem_flatMap.mpr ⟨_, List.mem_of_getElem? hcells, List.mem_flatMap.mpr ⟨_, ?_, hm⟩⟩
    refine List.mem_map_of_mem ?_
    rw [WrittenTable.rowsSource, List.zipIdx_cons, List.zipIdx_append]
    refine List.mem_cons_of_mem _ (List.mem_append_right _ ?_)
    convert hplace using 2
    rw [WrittenTable.numberColumns]
    split
    · rfl
    · rfl
  subst hrow
  constructor
  · rw [List.length_append, hnumbers, List.length_map, List.length_zipIdx, List.length_map,
      WrittenTable.lookupColumns, List.length_append, List.length_map]
  · rfl
  · rw [List.drop_left' hnumbers]
    exact hfields

/-- Below another table the second cell is the number of the owner. -/
theorem owner_row (hlink : f.table.link.isSome = true) {above : List Path} {step : Path}
    (hlevels : f.table.levels = above ++ [step]) {row : List Expr}
    (h : (Value.elementsAlong f.table.levels value)[i]? = some (address, element))
    (hrow : (f.rows value)[i]? = some row) :
    ∃ j owner, (Value.elementsAlong above value)[j]? = some (address.dropLast, owner) ∧
      row[1]? = some (.int (Int64.ofNat j)) := by
  obtain ⟨e, howned, hcells⟩ := getElem?_cells h
  obtain ⟨j, owner, hj, hfound⟩ := howned.owner above step hlevels
  rw [rows, List.getElem?_map, hcells, Option.map_some, Option.some.injEq,
    RowsSource.exprs_row, if_pos hlink, RowsSource.ownerCell, hj] at hrow
  subst hrow
  exact ⟨j, owner, hfound, rfl⟩

end LookupFill

end Rows

section Whole

/-- The variable that an insert fills, the columns it lists, and where the rows come from. -/
def Sql.Statement.fills? : Statement → Option (String × List String × InsertSource)
  | .insert (.tableVar name) columns source => some (name, columns, source)
  | _ => none

/-- The second cell of a row is the first one in the row of the owner, the element that is reached before
the last step. -/
def NotesOwners (elements : WrittenTable → List (Address × Value))
    (rows : WrittenTable → List (List Expr)) (parent child : WrittenTable) : Prop :=
  child.lookupColumns[1]? = some parentColumn ∧
    ∀ (i : Nat) (address : Address) (element : Value) (row : List Expr),
      (elements child)[i]? = some (address, element) → (rows child)[i]? = some row →
        ∃ (j : Nat) (owner : Value) (above : List Expr),
          (elements parent)[j]? = some (address.dropLast, owner) ∧ (rows parent)[j]? = some above ∧
            row[1]? = above[0]?

/-- The rows of a written tree correspond to the elements of a value. The batch fills the variable of
every table once; the rows are those of the elements down to the table, one for each, in the order of the
document; and below another table they note their owners. -/
structure Sql.Batch.Correlated (batch : Batch) (params : Params) (value : Value) (tree : WrittenTree)
    (elements : WrittenTable → List (Address × Value)) (rows : WrittenTable → List (List Expr)) :
    Prop where
  filled : batch.filterMap Statement.fills? =
    tree.preorder.map fun t => (t.lookup, t.lookupColumns, .rows (rows t))
  listed : ∀ t ∈ tree.preorder, value.Lists t.levels (elements t)
  counted : ∀ t ∈ tree.preorder, (rows t).length = (elements t).length
  row : ∀ t ∈ tree.preorder, ∀ i address element row, (elements t)[i]? = some (address, element) →
    (rows t)[i]? = some row → t.RowOf params i element row
  owner : tree.Edges (NotesOwners elements rows)

/-- A function on keys that no two items share, given by a value for each item. -/
theorem exists_of_nodup_keys {α β : Type} [Inhabited β] {items : List α} {key : α → Nat} (f : α → β)
    (h : (items.map key).Nodup) : ∃ g : Nat → β, ∀ a ∈ items, g (key a) = f a := by
  induction items with
  | nil => exact ⟨fun _ => default, nofun⟩
  | cons a items ih =>
    rw [List.map_cons, List.nodup_cons] at h
    obtain ⟨g, hg⟩ := ih h.2
    refine ⟨Function.update g (key a) (f a), List.forall_mem_cons.mpr ⟨Function.update_self .., ?_⟩⟩
    intro b hb
    rw [Function.update_of_ne, hg b hb]
    exact fun hsame => h.1 (hsame ▸ List.mem_map_of_mem hb)

theorem fills?_of_role {st : Statement} (h : ∀ name, st.role ≠ .fills name) : st.fills? = none := by
  cases st with
  | insert target columns source =>
    cases target with
    | tableVar name => exact absurd rfl (h name)
    | table name => rfl
  | declare _ _ | delete _ _ | merge _ | query _ | update _ => rfl

theorem filterMap_fills?_of_roles (batch : Batch) (h : ∀ name, Role.fills name ∉ batch.roles) :
    batch.filterMap Statement.fills? = [] :=
  List.filterMap_eq_nil_iff.mpr fun _ hst => fills?_of_role fun name hrole =>
    h name (hrole ▸ List.mem_map_of_mem hst)

theorem fills?_filled (f : HoleFiller) (st : Statement) :
    (st.filled f).fills? = st.fills?.map fun p => (p.1, p.2.1, p.2.2.filled f) := by
  cases st with
  | insert target columns source =>
    cases target with
    | tableVar name | table name => rfl
  | declare _ _ | delete _ _ | merge _ | query _ | update _ => rfl

theorem Sql.HoleFiller.ofSubstitution_rows {subs : Substitution} {id : HoleId} {data : List (List Expr)}
    (h : subs.find? id = some (.rows data)) :
    ∃ inner, (ofSubstitution subs).rows id = .rows (data.map (exprsFilled inner)) := by
  have hfilling : ∀ inner, (filling subs inner).rows id = .rows (data.map (exprsFilled inner)) := by
    intro inner
    simp only [filling, h]
  unfold ofSubstitution
  cases subs.size with
  | zero => exact ⟨_, hfilling _⟩
  | succ depth => exact ⟨_, hfilling _⟩

namespace LookupFill

variable {value : Value} {f : LookupFill}

/-- Rows have no holes of their own. -/
theorem rows_closed (inner : HoleFiller) : (f.rows value).map (exprsFilled inner) = f.rows value := by
  have hcell : ∀ names number e place, (RowsSource.cell names number e place).1.filled inner =
      (RowsSource.cell names number e place).1 := by
    intro names number e place
    obtain ⟨column, i⟩ := place
    cases column with
    | index | field _ | null => simp only [RowsSource.cell, Expr.filled]
    | parentIndex =>
      obtain ⟨owner, v⟩ := e
      cases owner with
      | none | some _ => simp only [RowsSource.cell, Expr.filled]
  refine (List.map_congr_left fun row hrow => ?_).trans (List.map_id _)
  obtain ⟨cells, hcells, rfl⟩ := List.mem_map.mp hrow
  obtain ⟨⟨e, number⟩, _, rfl⟩ := List.mem_map.mp hcells
  rw [exprsFilled_eq, List.map_map]
  refine List.map_congr_left fun cell hmem => ?_
  obtain ⟨place, _, rfl⟩ := List.mem_map.mp hmem
  exact hcell _ _ _ place

theorem filled_statement {subs : Substitution} (h : subs.find? f.hole = some (.rows (f.rows value))) :
    f.statement.filled (.ofSubstitution subs) =
      .insert (.tableVar f.table.lookup) f.table.lookupColumns (.rows (f.rows value)) := by
  obtain ⟨inner, hrows⟩ := HoleFiller.ofSubstitution_rows h
  rw [statement, Statement.filled, InsertSource.filled, hrows, rows_closed]

end LookupFill

namespace Planner

variable {p : Planner} {tree : WrittenTree} {batch filled returned : Batch}
  {relations : Option Relations}

/-- Of the statements of a write, those that fill variables are planned for that alone. -/
theorem fills?_batch (hreturned : p.Returned returned relations)
    (hbatch : batch = declarations tree ++ filled ++ p.writes tree ++ p.removals tree ++ returned) :
    batch.filterMap Statement.fills? = filled.filterMap Statement.fills? := by
  have hdeclarations := filterMap_fills?_of_roles (declarations tree) fun name hmem => by
    obtain ⟨_, hdeclares, _⟩ := mem_roles_declarations.mp hmem
    cases hdeclares
  have hwrites := filterMap_fills?_of_roles (p.writes tree) fun name hmem => by
    obtain ⟨st, hst, hrole⟩ := List.mem_map.mp hmem
    obtain ⟨v, _, hst⟩ := List.mem_flatMap.mp hst
    exact nomatch hrole ▸ subject_writeTable (List.mem_map_of_mem hst)
  have hremovals := filterMap_fills?_of_roles (p.removals tree) fun name hmem => by
    cases p.roles_removals tree _ hmem
  have hlast := filterMap_fills?_of_roles returned fun name hmem => by
    rcases roles_returned hreturned with hnone | hselects
    · rw [hnone] at hmem
      cases hmem
    · rw [hselects, List.mem_singleton] at hmem
      cases hmem
  rw [hbatch, List.filterMap_append, List.filterMap_append, List.filterMap_append,
    List.filterMap_append, hdeclarations, hwrites, hremovals, hlast]
  simp only [List.nil_append, List.append_nil]

/-- The rows of a tree of tables, bound for a value. -/
theorem Laid.correlated (h : p.Laid tree) {fills : List LookupFill} {value : Value} {params : Params}
    {subs : Substitution} (htables : fills.map LookupFill.table = tree.preorder)
    (hfilled : batch.filterMap Statement.fills? =
      (fills.map LookupFill.statement).filterMap Statement.fills?)
    (hbound : ∀ f ∈ fills, subs.find? f.hole = some (.rows (f.rows value)) ∧
      ∀ m ∈ f.added value, params.getExact? m.1 = some m.2) :
    ∃ rows, (batch.filled subs).Correlated params value tree
      (fun t => Value.elementsAlong t.levels value) rows := by
  have hindexes : (fills.map fun f => f.table.index).Nodup := by
    have hnodup := h.nodup_indexes
    rw [← htables, List.map_map] at hnodup
    exact hnodup
  obtain ⟨rows, hrows⟩ := exists_of_nodup_keys (LookupFill.rows value) hindexes
  have heach : ∀ t ∈ tree.preorder, ∃ f ∈ fills, f.table = t ∧ rows t.index = f.rows value := by
    intro t ht
    rw [← htables] at ht
    obtain ⟨f, hf, rfl⟩ := List.mem_map.mp ht
    exact ⟨f, hf, rfl, hrows f hf⟩
  refine ⟨fun t : WrittenTable => rows t.index, ?_, fun t _ => value.lists_elementsAlong t.levels, ?_, ?_, ?_⟩
  · have hmap : (batch.filled subs).filterMap Statement.fills? =
        (batch.filterMap Statement.fills?).map fun p =>
          (p.1, p.2.1, p.2.2.filled (.ofSubstitution subs)) := by
      rw [Batch.filled, List.filterMap_map, List.map_filterMap]
      exact List.filterMap_congr fun st _ => fills?_filled _ st
    rw [hmap, hfilled, ← htables, List.map_filterMap, List.filterMap_map, List.map_map]
    refine (List.filterMap_congr fun f hf => ?_).trans (congrFun List.filterMap_eq_map fills)
    have hst := LookupFill.filled_statement (hbound f hf).1
    have hshown := fills?_filled (.ofSubstitution subs) f.statement
    rw [hst] at hshown
    rw [Function.comp_apply, ← hshown]
    show some (_, _, InsertSource.rows (f.rows value)) = some (_, _, .rows (rows f.table.index))
    rw [hrows f hf]
  · intro t ht
    obtain ⟨f, hf, rfl, hsame⟩ := heach t ht
    show (rows f.table.index).length = _
    rw [hsame, LookupFill.length_rows]
  · intro t ht i address element row helement hrow
    obtain ⟨f, hf, rfl, hsame⟩ := heach t ht
    exact LookupFill.rowOf (hbound f hf).2 helement (hsame ▸ hrow)
  · refine Tree.Edges.mono tree (fun parent child hparent hchild hbelow => ?_) h.edges
    obtain ⟨link, hlink, _⟩ := hbelow.1.linked
    obtain ⟨step, hlevels⟩ := hbelow.1.step
    have hsome : child.link.isSome = true := by rw [hlink]; rfl
    refine ⟨?_, fun i address element row helement hrow => ?_⟩
    · rw [WrittenTable.lookupColumns, WrittenTable.numberColumns, if_pos hsome]
      exact rfl
    obtain ⟨f, hf, rfl, hsame⟩ := heach child hchild
    obtain ⟨g, hg, rfl, hsameAbove⟩ := heach parent hparent
    simp only [hsame, hsameAbove] at hrow ⊢
    obtain ⟨j, owner, howner, hcell⟩ := LookupFill.owner_row hsome hlevels helement hrow
    have hlength : j < (g.rows value).length := by
      rw [LookupFill.length_rows]
      exact (List.getElem?_eq_some_iff.mp howner).1
    have habove := List.getElem?_eq_getElem hlength
    refine ⟨j, owner, _, howner, habove, ?_⟩
    rw [hcell, (LookupFill.rowOf (hbound g hg).2 howner habove).index]

end Planner

end Whole

namespace Compiler

/-- The rows that an insert, an upsert or a sync is bound to correspond to the elements of its argument,
unless it writes a single table without a result, in one statement that fills no variable. -/
theorem compile_correlated {declarations : List TableDeclaration} {schema : Schema}
    {setup : CompilerSetup} {c : Compiler} {spec : QuerySpec} {compiled : Compiled}
    (hschema : Schema.build declarations = .ok schema) (hsetup : setup.schema = some schema)
    (hbuild : setup.build = .ok c) (hcompile : c.compile spec = .ok compiled)
    (hwrites : spec.operation = .insert ∨ spec.operation = .upsert ∨ spec.operation = .sync) :
    ∃ p entity tree, Plan.PlannedBy c.resolver c.options.keyWindowAlias spec p ∧
      p.entity = .ok entity ∧ p.writtenTree entity = .ok tree ∧
      ((∀ args bound, compiled.bind args = .ok bound →
        ∃ batch elements rows, compiled.resolved args = .ok batch ∧
          batch.render .empty = .ok bound.sql ∧
          batch.Correlated bound.params (args.entry entity.label.path) tree elements rows) ∨
        tree.size = 1 ∧ ∃ name columns hole,
          compiled.plan.batch = [.insert (.table name) columns (.hole hole)]) := by
  obtain ⟨p, d, hp, hrun, hrules, _, _, hs, hkeyed, htable⟩ :=
    planner_of_compile hschema hsetup hbuild hcompile
  have hwrite := Planner.write_of_statements hrun (hp.operation ▸ hwrites)
  obtain ⟨entity, tree, hentity, htree, ⟨hsize, hplain⟩ | ⟨filled, returned, hfilled, hreturned,
    hbatch⟩⟩ := p.write_batch hwrite
  · refine ⟨p, entity, tree, hp, hentity, htree, Or.inr ⟨hsize, ?_⟩⟩
    obtain ⟨names, _, _, hole, _, hbatch⟩ := Planner.plainInsert_inv hplain
    exact ⟨_, _, hole, hbatch⟩
  · refine ⟨p, entity, tree, hp, hentity, htree, Or.inl fun args bound hbind => ?_⟩
    obtain ⟨fills, htables, rfl, hadded, hbases, _⟩ := Planner.fillLookups_eq hfilled
    have hfills : compiled.plan.rules = fills.map (LookupFill.rule entity.label.path) := by
      rw [hrules, hadded]
      rfl
    obtain ⟨subs, params, batch, hsubs, hresolved, rfl, hrender⟩ := Compiled.resolved_of_bind hbind
    obtain ⟨subs', hsubs'⟩ := Plan.substitution_of_bind hbind
    obtain ⟨rfl, rfl⟩ : subs = subs' ∧ params = bound.params := by
      rw [hsubs] at hsubs'
      exact Prod.mk.inj (Except.ok.inj hsubs')
    have hbound := Plan.rows_bound (Plan.ofSpec_sound (ofSpec_of_compile hcompile).2) hfills hbases hsubs
    obtain ⟨rows, hrows⟩ := (Planner.writtenTree_laid hs hkeyed htable htree).correlated htables
      (Planner.fills?_batch hreturned hbatch) hbound
    exact ⟨_, _, rows, hresolved, hrender, hrows⟩

/-- Orders with gaps: one of them, a line and a customer are null. -/
def orderArguments : Value := .record [("orders", .list [
  .record [("Id", .i32 1), ("Customer", .record [("Name", .text "Ann")]),
    ("Lines", .list [.record [("Id", .i32 7)], .null, .record [("Id", .i32 8)]])],
  .null,
  .record [("Id", .i32 2), ("Customer", .null), ("Lines", .list [.record [("Id", .i32 9)]]),
    ("Tags", .list [.record [("Id", .i32 5)]])]])]

/-- The sync is a batch of several statements, and is bound to the orders. -/
def orderBoundTest (c : Compiler) (spec : QuerySpec) (compiled : Compiled) : Bool :=
  orderTest c spec compiled && (compiled.bind orderArguments).toOption.any fun _ => true

/-- The rows of orders, customers, lines and tags correspond to the elements of the argument. -/
theorem compile_correlated_order :
    ∃ schema spec compiled bound, Schema.build orderDeclarations = .ok schema ∧
      orderSync.build orderShapes = .ok spec ∧
      (⟨schema, default, .exact⟩ : Compiler).compile spec = .ok compiled ∧
      compiled.bind orderArguments = .ok bound ∧
      ∃ (entity : FieldTree) (tree : WrittenTree) (batch : Batch)
        (elements : WrittenTable → List (Address × Value)) (rows : WrittenTable → List (List Expr)),
        compiled.resolved orderArguments = .ok batch ∧ batch.render .empty = .ok bound.sql ∧
        batch.Correlated bound.params (orderArguments.entry entity.label.path) tree elements rows := by
  obtain ⟨schema, spec, compiled, hschema, hspec, hcompile, htest⟩ :
      ∃ schema spec compiled, Schema.build orderDeclarations = .ok schema ∧
        orderSync.build orderShapes = .ok spec ∧
        (⟨schema, default, .exact⟩ : Compiler).compile spec = .ok compiled ∧
        orderBoundTest ⟨schema, default, .exact⟩ spec compiled = true :=
    exists_compiled (by decide +kernel)
  simp only [orderBoundTest, orderTest, Bool.and_eq_true, beq_iff_eq] at htest
  obtain ⟨⟨hsync, hlength⟩, hbinds⟩ := htest
  obtain ⟨bound, hbind, _⟩ := exists_ok_of_any hbinds
  have hbuild : (CompilerSetup.mk (some schema) default (some .exact)).build =
      .ok ⟨schema, default, .exact⟩ := rfl
  obtain ⟨p, entity, tree, _, _, _, hrows | ⟨_, name, columns, hole, hbatch⟩⟩ :=
    compile_correlated hschema rfl hbuild hcompile (.inr (.inr hsync))
  · obtain ⟨batch, elements, rows, hresolved, hrender, hcorrelated⟩ := hrows orderArguments bound hbind
    exact ⟨schema, spec, compiled, bound, hschema, hspec, hcompile, hbind, entity, tree, batch, elements,
      rows, hresolved, hrender, hcorrelated⟩
  · rw [hbatch] at hlength
    cases hlength

end Compiler

end ShapeSql
