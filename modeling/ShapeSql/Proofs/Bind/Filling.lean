import ShapeSql.Proofs.Bind.Skeleton
import ShapeSql.Proofs.Plan.Draft

namespace ShapeSql

open Sql

section Cases

namespace Predicate

/-- The members that are there, each with a parameter of its own. -/
def members (p : Predicate) (items : List Value) : List (String × Value) :=
  (items.filter (!·.isNull)).zipIdx.map fun (item, place) => (itemName p.param place, item)

/-- Whether the list is empty, has nulls alone, no nulls, or both nulls and others. -/
theorem inList_cases (p : Predicate) (items : List Value) :
    (items = [] ∧ p.inList items = ⟨.expr (if p.negate then .tautology else .contradiction), [], []⟩) ∨
    (items ≠ [] ∧ (∀ item ∈ items, item.isNull = true) ∧
      p.inList items = ⟨.expr (.isNull p.column p.negate), [], []⟩) ∨
    ((∃ item ∈ items, item.isNull = false) ∧ (∀ item ∈ items, item.isNull = false) ∧
      p.inList items = ⟨.expr (.inList p.column ((p.members items).map fun m => .param m.1) p.negate),
        p.members items, []⟩) ∨
    ((∃ item ∈ items, item.isNull = false) ∧ (∃ item ∈ items, item.isNull = true) ∧
      p.inList items = ⟨.expr (if p.negate
        then (Expr.inList p.column ((p.members items).map fun m => .param m.1) true).and
          (.isNull p.column true)
        else (Expr.inList p.column ((p.members items).map fun m => .param m.1) false).or
          (.isNull p.column false)), p.members items, []⟩) := by
  have hfill : p.inList items = ⟨.expr (
      if items.isEmpty then if p.negate then .tautology else .contradiction
      else if (p.members items).isEmpty then .isNull p.column p.negate
      else if !items.any Value.isNull then
        .inList p.column ((p.members items).map fun m => .param m.1) p.negate
      else if p.negate then
        (Expr.inList p.column ((p.members items).map fun m => .param m.1) p.negate).and
          (.isNull p.column p.negate)
      else (Expr.inList p.column ((p.members items).map fun m => .param m.1) p.negate).or
          (.isNull p.column p.negate)), p.members items, []⟩ := rfl
  have hpresent : (p.members items).isEmpty = true ↔ ∀ item ∈ items, item.isNull = true := by
    simp [members]
  by_cases hempty : items = []
  · subst hempty
    exact .inl ⟨rfl, rfl⟩
  rw [if_neg (mt List.isEmpty_iff.mp hempty)] at hfill
  by_cases hnulls : ∀ item ∈ items, item.isNull = true
  · rw [if_pos (hpresent.mpr hnulls), List.isEmpty_iff.mp (hpresent.mpr hnulls)] at hfill
    exact .inr (.inl ⟨hempty, hnulls, hfill⟩)
  rw [if_neg (mt hpresent.mp hnulls)] at hfill
  have hsome : ∃ item ∈ items, item.isNull = false := by simpa using hnulls
  by_cases hall : ∀ item ∈ items, item.isNull = false
  · rw [if_pos (by simpa using hall)] at hfill
    exact .inr (.inr (.inl ⟨hsome, hall, hfill⟩))
  · rw [if_neg (by simpa using hall)] at hfill
    refine .inr (.inr (.inr ⟨hsome, by simpa using hall, hfill.trans ?_⟩))
    cases p.negate <;> rfl

section Kinds

variable {p : Predicate} {value : Value} (hkept : isIgnored p.ignore value = false)

include hkept

theorem fill_null (hkind : p.kind = .eq ∨ p.kind = .like) (hnull : value.isNull = true) :
    p.fill value = .without p.param (.expr (.isNull p.column p.negate)) := by
  rcases hkind with hkind | hkind
  all_goals simp only [fill, hkept, hkind, hnull, if_true, Bool.false_eq_true, if_false]

theorem fill_inList (hkind : p.kind = .inList) : p.fill value = p.inList value.items := by
  simp only [fill, hkept, hkind, Bool.false_eq_true, if_false]

/-- Equalities with a value that is there are comparisons like any other. -/
theorem fill_compare {op : CompareOp}
    (hkind : p.kind = .compare op ∨ p.kind = .eq ∧ op = .eq ∧ value.isNull = false) :
    p.fill value = .expr (.compare p.column (if p.negate then op.negate else op) (.param p.param)) := by
  rcases hkind with hkind | ⟨hkind, rfl, hthere⟩
  · simp only [fill, hkept, hkind, Bool.false_eq_true, if_false]
  · simp only [fill, hkept, hkind, hthere, Bool.false_eq_true, if_false, CompareOp.negate]

theorem fill_like (hkind : p.kind = .like) (hthere : value.isNull = false) :
    p.fill value = .expr (.like p.column (.param p.param) p.negate) := by
  simp only [fill, hkept, hkind, hthere, Bool.false_eq_true, if_false]

end Kinds

/-- What a comparison may make of a value. Only equality and patterns do without the parameter when the
value is null. -/
inductive Makes (p : Predicate) (value : Value) : Filling → Prop
  | nothing (hignored : isIgnored p.ignore value = true) :
    Makes p value (.without p.param (.expr .tautology))
  | null (hkept : isIgnored p.ignore value = false) (hkind : p.kind = .eq ∨ p.kind = .like)
      (hnull : value.isNull = true) :
    Makes p value (.without p.param (.expr (.isNull p.column p.negate)))
  | list (hkept : isIgnored p.ignore value = false) (hkind : p.kind = .inList) :
    Makes p value (p.inList value.items)
  | compare (op : CompareOp) (hkept : isIgnored p.ignore value = false)
      (hkind : p.kind = .compare op ∨ p.kind = .eq ∧ op = .eq ∧ value.isNull = false) :
    Makes p value (.expr (.compare p.column (if p.negate then op.negate else op) (.param p.param)))
  | like (hkept : isIgnored p.ignore value = false) (hkind : p.kind = .like)
      (hthere : value.isNull = false) :
    Makes p value (.expr (.like p.column (.param p.param) p.negate))

theorem fill_makes (p : Predicate) (value : Value) : p.Makes value (p.fill value) := by
  cases hkept : isIgnored p.ignore value with
  | true =>
    rw [fill, if_pos hkept]
    exact .nothing hkept
  | false =>
    cases hkind : p.kind with
    | inList =>
      rw [fill_inList hkept hkind]
      exact .list hkept hkind
    | compare op =>
      rw [fill_compare hkept (.inl hkind)]
      exact .compare op hkept (.inl hkind)
    | eq =>
      cases hnull : value.isNull with
      | true =>
        rw [fill_null hkept (.inl hkind) hnull]
        exact .null hkept (.inl hkind) hnull
      | false =>
        have hoperator : p.kind = .compare .eq ∨ p.kind = .eq ∧ CompareOp.eq = .eq ∧
            value.isNull = false := .inr ⟨hkind, rfl, hnull⟩
        rw [fill_compare hkept hoperator]
        exact .compare .eq hkept hoperator
    | like =>
      cases hnull : value.isNull with
      | true =>
        rw [fill_null hkept (.inr hkind) hnull]
        exact .null hkept (.inr hkind) hnull
      | false =>
        rw [fill_like hkept hkind hnull]
        exact .like hkept hkind hnull

end Predicate

/-- A term of a dynamic ordering is a column of one of its tables. -/
theorem term_of_dynamicOrder {s : Schema} {path : Path} {first : OrderTarget}
    {others : List OrderTarget} {value : Value} {terms : List OrderTerm}
    (h : dynamicOrder s path first others value = .ok terms) {term : OrderTerm} (hterm : term ∈ terms) :
    ∃ target ∈ first :: others, ∃ column ∈ (s.table target.table).columns,
      term.expr = .columnOf target.aliasName column.name := by
  obtain ⟨entry, _, hentry⟩ := mem_of_mapM_ok h hterm
  obtain ⟨e, _, hentry⟩ := except_bind_ok.mp hentry
  obtain ⟨target, htarget, hentry⟩ := except_bind_ok.mp hentry
  have hmem : target ∈ first :: others := by
    unfold OrderEntry.target at htarget
    split at htarget
    · cases htarget
      exact List.mem_cons_self
    · simp only at htarget
      split at htarget
      · rename_i found
        cases htarget
        exact List.mem_of_find?_eq_some found
      · cases htarget
  simp only at hentry
  split at hentry
  · cases hentry
  · rename_i column hcolumn
    obtain ⟨direction, _, hpure⟩ := except_bind_ok.mp hentry
    cases hpure
    exact ⟨target, hmem, column, mem_of_findNamed hcolumn, rfl⟩

/-- Rows are made of a value that has elements where they are required, and no more than one where the
names are listed. -/
theorem RowsSource.fill_ok_iff {source : RowsSource} {path : Path} {value : Value} {f : Filling} :
    source.fill path value = .ok f ↔
      (source.required = true → value.presentItems ≠ []) ∧
      (∀ listed, source.names = .fields listed → value.presentItems.length ≤ 1) ∧
      f = fillingOf (source.rowsOf (source.elements value.presentItems)) := by
  have hrequired : (source.required && value.presentItems.isEmpty) = true ↔
      ¬(source.required = true → value.presentItems ≠ []) := by
    simp
  unfold fill
  simp only
  split
  · rename_i hnone
    exact iff_of_false nofun fun h => hrequired.mp hnone h.1
  · rename_i hsome
    have hpresent := not_not.mp (mt hrequired.mpr hsome)
    cases hnames : source.names with
    | derived base =>
      simp only
      exact ⟨fun h => ⟨hpresent, nofun, (Except.ok.inj h).symm⟩, fun h => h.2.2 ▸ rfl⟩
    | fields listed =>
      simp only
      split
      · rename_i hseveral
        exact iff_of_false nofun fun h => absurd (h.2.1 listed rfl) (Nat.not_le.mpr hseveral)
      · rename_i hsingle
        exact ⟨fun h => ⟨hpresent, fun _ _ => Nat.not_lt.mp hsingle, (Except.ok.inj h).symm⟩,
          fun h => h.2.2 ▸ rfl⟩

/-- The cells of all listed entities. -/
def listedCells (columns : List (Expr × Path)) (base : String) (value : Value) : List (List KeyCell) :=
  value.presentItems.zipIdx.map fun (entity, place) => keyCells columns (itemName base place) entity

/-- The parameters of all listed entities, for a key of one column. -/
def listedKeys (field : Path) (base : String) (value : Value) : List (String × Value) :=
  value.presentItems.zipIdx.map fun (entity, place) => (itemName base place, entity.entry field)

/-- Without entities nothing is matched; a key of one column is a list, and a longer one has branches. -/
theorem keyMatch_cases (columns : List (Expr × Path)) (base : String) (value : Value) :
    (value.presentItems = [] ∧ keyMatch columns base value = .expr .contradiction) ∨
    (∃ column field, columns = [(column, field)] ∧ value.presentItems ≠ [] ∧
      keyMatch columns base value =
        ⟨.expr (.inList column ((listedKeys field base value).map fun m => .param m.1) false),
          listedKeys field base value, []⟩) ∨
    keyMatch columns base value = keyBranches (listedCells columns base value) := by
  by_cases hempty : value.presentItems.isEmpty = true
  · exact .inl ⟨List.isEmpty_iff.mp hempty, by simp only [keyMatch, if_pos hempty]⟩
  · simp only [keyMatch, if_neg hempty]
    split
    · exact .inr (.inl ⟨_, _, rfl, mt List.isEmpty_iff.mpr hempty, rfl⟩)
    · exact .inr (.inr rfl)

/-- A cell of a listed entity is that of a key column, under a name of its own. -/
theorem cell_of_listed {columns : List (Expr × Path)} {base : String} {value : Value}
    {entity : List KeyCell} (hentity : entity ∈ listedCells columns base value) {cell : KeyCell}
    (hcell : cell ∈ entity) :
    ∃ key ∈ columns, cell.column = key.1 ∧ ∃ i j, cell.param = itemName (itemName base i) j := by
  obtain ⟨⟨item, i⟩, _, rfl⟩ := List.mem_map.mp hentity
  obtain ⟨⟨key, j⟩, hplace, rfl⟩ := List.mem_map.mp hcell
  exact ⟨key, List.fst_mem_of_mem_zipIdx hplace, rfl, i, j, rfl⟩

/-- An assignment is left out, or sets its column to its parameter. -/
theorem HoleRule.fill_assign {s : Schema} {hole : HoleId} {path : Path} {column param : String}
    {ignore : Option Ignore} {value : Value} {f : Filling}
    (h : (HoleRule.mk hole path (.assign column param ignore)).fill s value = .ok f) :
    (isIgnored ignore value = true ∧ f = .without param (.assignments [])) ∨
    (isIgnored ignore value = false ∧ f = ⟨.assignments [.set column (.param param)], [], []⟩) := by
  cases hkept : isIgnored ignore value with
  | true =>
    simp only [fill, hkept, if_true] at h
    exact .inl ⟨rfl, (Except.ok.inj h).symm⟩
  | false =>
    simp only [fill, hkept, Bool.false_eq_true, if_false] at h
    exact .inr ⟨rfl, (Except.ok.inj h).symm⟩

end Cases

structure Filling.Serves (f : Filling) (action : Action) : Prop where
  place : f.fragment.place = action.place
  leaves : ∀ l ∈ f.fragment.leaves, l ∈ action.leaves ∨ ∃ name, l = .param name ∧
    (name ∈ f.added.map Prod.fst ∨ (action.param? = some name ∧ f.removed = []))
  owned : ∀ name ∈ f.added.map Prod.fst, action.Owns name
  removed : ∀ name ∈ f.removed, action.param? = some name ∨ action.Owns name

theorem Sql.Expr.flatMap_leaves_param {α : Type} (name : α → String) (items : List α) :
    (items.map fun a => Expr.param (name a)).flatMap (Expr.collect .leaves ()) =
      items.map fun a => Leaf.param (name a) := by
  rw [List.flatMap_map, List.map_eq_flatMap]
  simp only [Expr.collect, Collector.leaves_param]

namespace Predicate

variable (p : Predicate)

theorem members_ne_nil {items : List Value} (h : ∃ item ∈ items, item.isNull = false) :
    p.members items ≠ [] := by
  obtain ⟨item, hitem, hthere⟩ := h
  have hpresent : item ∈ items.filter (!·.isNull) := List.mem_filter.mpr ⟨hitem, by rw [hthere]; rfl⟩
  rw [members, ne_eq, List.map_eq_nil_iff, List.zipIdx_eq_nil_iff]
  exact List.ne_nil_of_mem hpresent

theorem leaves_members {items : List Value} (h : ∃ item ∈ items, item.isNull = false) (negate : Bool) :
    (Expr.inList p.column ((p.members items).map fun m => .param m.1) negate).collect .leaves () =
      p.column.collect .leaves () ++ (p.members items).map fun m => .param m.1 := by
  have hmembers : (p.members items).map (fun m => Expr.param m.1) ≠ [] :=
    mt List.map_eq_nil_iff.mp (p.members_ne_nil h)
  rw [Expr.collect_inList hmembers, Expr.flatMap_leaves_param]

/-- The condition of a list leaves nothing open but the column and the parameters of members. -/
theorem mem_leaves_inList {items : List Value} {l : Leaf}
    (h : l ∈ (p.inList items).fragment.leaves) :
    l ∈ p.column.collect .leaves () ∨ ∃ m ∈ p.members items, l = .param m.1 := by
  have hnulls : ∀ negate, l ∈ (Expr.isNull p.column negate).collect .leaves () →
      l ∈ p.column.collect .leaves () := by
    intro negate hl
    rwa [Expr.collect] at hl
  have hmembers : (∃ item ∈ items, item.isNull = false) → ∀ negate,
      l ∈ (Expr.inList p.column ((p.members items).map fun m => .param m.1) negate).collect .leaves () →
        l ∈ p.column.collect .leaves () ∨ ∃ m ∈ p.members items, l = .param m.1 := by
    intro hsome negate hl
    rw [p.leaves_members hsome, List.mem_append, List.mem_map] at hl
    exact hl.imp_right fun ⟨m, hm, heq⟩ => ⟨m, hm, heq.symm⟩
  rcases p.inList_cases items with ⟨_, hfill⟩ | ⟨_, _, hfill⟩ | ⟨hsome, _, hfill⟩ | ⟨hsome, _, hfill⟩
  · rw [hfill, Fragment.leaves] at h
    split at h <;> simp at h
  · rw [hfill] at h
    exact .inl (hnulls p.negate h)
  · rw [hfill] at h
    exact hmembers hsome p.negate h
  · rw [hfill, Fragment.leaves] at h
    split at h
    · rw [Expr.collect_and, List.mem_append] at h
      exact h.elim (hmembers hsome _) fun hl => .inl (hnulls _ hl)
    · rw [Expr.collect_or, List.mem_append] at h
      exact h.elim (hmembers hsome _) fun hl => .inl (hnulls _ hl)

theorem inList_serves (hkind : p.kind = .inList) (items : List Value) :
    (p.inList items).Serves (.predicate p) := by
  refine ⟨rfl, ?_, ?_, nofun⟩
  · intro l hl
    rcases p.mem_leaves_inList hl with hcolumn | ⟨m, hm, rfl⟩
    · exact .inl hcolumn
    · exact .inr ⟨m.1, rfl, .inl (List.mem_map_of_mem hm)⟩
  · intro name hname
    obtain ⟨m, hm, rfl⟩ := List.mem_map.mp hname
    obtain ⟨⟨item, i⟩, _, rfl⟩ := List.mem_map.mp hm
    exact ⟨hkind, .inr ⟨i, rfl⟩⟩

/-- A condition without the parameter takes it back. -/
theorem without_serves {e : Expr} (he : ∀ l ∈ e.collect .leaves (), l ∈ p.column.collect .leaves ()) :
    (Filling.without p.param (.expr e)).Serves (.predicate p) where
  place := rfl
  leaves l hl := Or.inl (he l hl)
  owned := nofun
  removed name hname := by
    rw [List.mem_singleton.mp hname, Action.param?]
    by_cases hkind : p.kind = .inList
    · exact Or.inr ⟨hkind, Or.inl rfl⟩
    · exact Or.inl (if_neg hkind)

/-- A condition with the parameter. -/
theorem expr_serves (hkind : p.kind ≠ .inList) {e : Expr}
    (he : e.collect .leaves () = p.column.collect .leaves () ++ [.param p.param]) :
    (Filling.expr e).Serves (.predicate p) where
  place := rfl
  leaves l hl := by
    rw [Filling.expr, Fragment.leaves, he] at hl
    rcases List.mem_append.mp hl with hcolumn | hparam
    · exact Or.inl hcolumn
    · have hdeclared : (Action.predicate p).param? = some p.param := if_neg hkind
      exact Or.inr ⟨p.param, List.mem_singleton.mp hparam, Or.inr ⟨hdeclared, rfl⟩⟩
  owned := nofun
  removed := nofun

variable {p} {value : Value} {f : Filling}

theorem Makes.serves (h : p.Makes value f) : f.Serves (.predicate p) := by
  cases h with
  | nothing =>
    apply p.without_serves
    rw [Expr.collect_tautology]
    exact nofun
  | null =>
    apply p.without_serves
    rw [Expr.collect]
    exact fun l => id
  | list hkept hkind => exact p.inList_serves hkind _
  | compare op hkept hkind =>
    apply p.expr_serves
    · rcases hkind with hkind | ⟨hkind, _⟩
      all_goals rw [hkind]; exact nofun
    · rw [Expr.collect, Expr.collect, Collector.leaves_param]
  | like hkept hkind =>
    apply p.expr_serves
    · rw [hkind]
      exact nofun
    · rw [Expr.collect, Expr.collect, Collector.leaves_param]

theorem fill_serves (p : Predicate) (value : Value) : (p.fill value).Serves (.predicate p) :=
  (p.fill_makes value).serves

end Predicate

/-- Terms that order by columns leave nothing open. -/
theorem leaves_dynamicOrder {s : Schema} {path : Path} {first : OrderTarget}
    {others : List OrderTarget} {value : Value} {terms : List OrderTerm}
    (h : dynamicOrder s path first others value = .ok terms) :
    terms.flatMap (fun t => t.expr.collect .leaves ()) = [] := by
  apply List.flatMap_eq_nil_iff.mpr
  intro term hterm
  obtain ⟨target, _, column, _, heq⟩ := term_of_dynamicOrder h hterm
  rw [heq]
  exact Expr.collect_columnOf _ _

namespace RowsSource

/-- A parameter that a cell reads comes with the cell. -/
theorem leaves_cell (names : RowNames) (position : Nat) (element : Element) (place : RowColumn × Nat)
    {l : Leaf} (h : l ∈ (cell names position element place).1.collect .leaves ()) :
    ∃ name, l = .param name ∧ name ∈ (cell names position element place).2.map Prod.fst := by
  obtain ⟨column, i⟩ := place
  cases column with
  | index | null =>
    simp only [cell, Expr.collect] at h
    cases h
  | parentIndex =>
    simp only [cell] at h
    split at h
    · rw [Expr.collect] at h
      cases h
    · rw [Expr.collect] at h
      cases h
  | field path =>
    simp only [cell, Expr.collect, Collector.leaves_param, List.mem_singleton] at h
    exact ⟨_, h, List.mem_singleton.mpr rfl⟩

/-- The names that the parameters of cells have are the rule's own. -/
theorem owns_of_mem_row {source : RowsSource} (hfits : source.Fits) {element : Element}
    {position : Nat} {cell : Expr × List (String × Value)} (hcell : cell ∈ source.row element position)
    {name : String} (hname : name ∈ cell.2.map Prod.fst) : (Action.rows source).Owns name := by
  obtain ⟨⟨column, i⟩, hplace, rfl⟩ := List.mem_map.mp hcell
  cases column with
  | index | parentIndex | null => cases hname
  | field path =>
    have hcolumn : i < source.columns.length := (List.mem_zipIdx' hplace).1
    rw [RowsSource.cell, List.map_singleton, List.mem_singleton] at hname
    rw [hname]
    cases hnames : source.names with
    | derived base =>
      simp only [Action.Owns, hnames]
      exact ⟨position, i, rfl⟩
    | fields names =>
      simp only [Fits, hnames] at hfits
      simp only [Action.Owns, hnames, cellName]
      have hlength : i < names.length := by omega
      rw [List.getD_eq_getElem?_getD, List.getElem?_eq_getElem hlength, Option.getD_some]
      exact List.getElem_mem hlength

theorem fill_serves {source : RowsSource} (hfits : source.Fits) {path : Path} {value : Value}
    {f : Filling} (h : source.fill path value = .ok f) : f.Serves (.rows source) := by
  obtain ⟨_, _, rfl⟩ := fill_ok_iff.mp h
  refine ⟨rfl, ?_, ?_, nofun⟩
  · intro l hl
    obtain ⟨exprs, hexprs, hl⟩ := List.mem_flatMap.mp hl
    obtain ⟨row, hrow, rfl⟩ := List.mem_map.mp hexprs
    rw [exprsCollect_eq, List.flatMap_map] at hl
    obtain ⟨cell, hcell, hl⟩ := List.mem_flatMap.mp hl
    obtain ⟨⟨element, position⟩, _, rfl⟩ := List.mem_map.mp hrow
    obtain ⟨place, _, rfl⟩ := List.mem_map.mp hcell
    obtain ⟨name, rfl, hname⟩ := leaves_cell _ _ _ _ hl
    refine Or.inr ⟨name, rfl, Or.inl ?_⟩
    obtain ⟨member, hmember, rfl⟩ := List.mem_map.mp hname
    have hinRow : member ∈ (source.row element position).flatMap Prod.snd :=
      List.mem_flatMap.mpr ⟨_, hcell, hmember⟩
    apply List.mem_map.mpr
    refine ⟨member, ?_, rfl⟩
    exact List.mem_flatMap.mpr ⟨_, hrow, hinRow⟩
  · intro name hname
    obtain ⟨member, hmember, rfl⟩ := List.mem_map.mp hname
    obtain ⟨row, hrow, hmember⟩ := List.mem_flatMap.mp hmember
    obtain ⟨⟨element, position⟩, _, rfl⟩ := List.mem_map.mp hrow
    obtain ⟨cell, hcell, hmember⟩ := List.mem_flatMap.mp hmember
    exact owns_of_mem_row hfits hcell (List.mem_map.mpr ⟨member, hmember, rfl⟩)

end RowsSource

/-- A cell of a key match leaves open its column and its parameter. -/
theorem KeyCell.leaves_equality (cell : KeyCell) :
    cell.equality.collect .leaves () = cell.column.collect .leaves () ++ [.param cell.param] := by
  rw [equality, Expr.collect_eq, Expr.collect, Collector.leaves_param]

/-- The branches of a key match leave open what their cells do. -/
theorem mem_leaves_keyBranches {cells : List (List KeyCell)} {l : Leaf}
    (h : l ∈ (keyBranches cells).fragment.leaves) :
    ∃ entity ∈ cells, ∃ cell ∈ entity, l ∈ cell.equality.collect .leaves () := by
  rw [keyBranches, Fragment.leaves, Expr.collect_anyOf] at h
  obtain ⟨branch, hbranch, hl⟩ := List.mem_flatMap.mp h
  obtain ⟨entity, hentity, hbranch⟩ := List.mem_filterMap.mp hbranch
  obtain ⟨all, hall, rfl⟩ := Option.map_eq_some_iff.mp hbranch
  rw [Expr.collect, Expr.collect_of_allOf? hall, List.flatMap_map] at hl
  obtain ⟨cell, hcell, hl⟩ := List.mem_flatMap.mp hl
  exact ⟨entity, hentity, cell, hcell, hl⟩

theorem keyBranches_serves {columns : List (Expr × Path)} {base : String}
    {cells : List (List KeyCell)}
    (hcolumn : ∀ entity ∈ cells, ∀ cell ∈ entity, ∃ c ∈ columns, cell.column = c.1)
    (hparam : ∀ entity ∈ cells, ∀ cell ∈ entity,
      ∃ i j, cell.param = itemName (itemName base i) j) :
    (keyBranches cells).Serves (.keyMatch columns base) := by
  refine ⟨rfl, ?_, ?_, nofun⟩
  · intro l hl
    obtain ⟨entity, hentity, cell, hcell, hl⟩ := mem_leaves_keyBranches hl
    rw [cell.leaves_equality] at hl
    rcases List.mem_append.mp hl with hcol | hpar
    · obtain ⟨c, hc, heq⟩ := hcolumn entity hentity cell hcell
      rw [heq] at hcol
      exact Or.inl (List.mem_flatMap.mpr ⟨c, hc, hcol⟩)
    · have hbinding : cell.binding ∈ entity.map KeyCell.binding := List.mem_map_of_mem hcell
      refine Or.inr ⟨cell.param, List.mem_singleton.mp hpar, Or.inl ?_⟩
      apply List.mem_map.mpr
      refine ⟨cell.binding, ?_, rfl⟩
      exact List.mem_flatMap.mpr ⟨entity, hentity, hbinding⟩
  · intro name hname
    obtain ⟨member, hmember, rfl⟩ := List.mem_map.mp hname
    obtain ⟨entity, hentity, hmember⟩ := List.mem_flatMap.mp hmember
    obtain ⟨cell, hcell, rfl⟩ := List.mem_map.mp hmember
    obtain ⟨i, j, hij⟩ := hparam entity hentity cell hcell
    exact ⟨i, Or.inr ⟨j, hij⟩⟩

/-- The list of a key of one column leaves open the column and the parameters of the entities. -/
theorem keyList_serves {column : Expr} {field : Path} {base : String} {added : List (String × Value)}
    (hadded : added ≠ []) (hnames : ∀ a ∈ added, ∃ i, a.1 = itemName base i) :
    (⟨.expr (.inList column (added.map fun a => .param a.1) false), added, []⟩ : Filling).Serves
      (.keyMatch [(column, field)] base) := by
  have hitems : (added.map fun a => Expr.param a.1) ≠ [] := by
    rw [ne_eq, List.map_eq_nil_iff]
    exact hadded
  refine ⟨rfl, ?_, ?_, nofun⟩
  · intro l hl
    rw [Fragment.leaves, Expr.collect_inList hitems, List.flatMap_map] at hl
    rcases List.mem_append.mp hl with hcolumn | hparam
    · exact Or.inl (List.mem_flatMap.mpr ⟨(column, field), List.mem_singleton.mpr rfl, hcolumn⟩)
    · obtain ⟨a, ha, hl⟩ := List.mem_flatMap.mp hparam
      rw [Expr.collect, Collector.leaves_param, List.mem_singleton] at hl
      exact Or.inr ⟨a.1, hl, Or.inl (List.mem_map.mpr ⟨a, ha, rfl⟩)⟩
  · intro name hname
    obtain ⟨a, ha, rfl⟩ := List.mem_map.mp hname
    obtain ⟨i, hi⟩ := hnames a ha
    exact ⟨i, Or.inl hi⟩

theorem keyMatch_serves (columns : List (Expr × Path)) (base : String) (value : Value) :
    (keyMatch columns base value).Serves (.keyMatch columns base) := by
  rcases keyMatch_cases columns base value with
    ⟨_, hmatch⟩ | ⟨column, field, rfl, hpresent, hmatch⟩ | hmatch
  · rw [hmatch]
    refine ⟨rfl, ?_, nofun, nofun⟩
    rw [Filling.expr, Fragment.leaves, Expr.collect_contradiction]
    exact nofun
  · rw [hmatch]
    apply keyList_serves
    · rw [listedKeys, ne_eq, List.map_eq_nil_iff, List.zipIdx_eq_nil_iff]
      exact hpresent
    · intro a ha
      obtain ⟨⟨entity, i⟩, _, rfl⟩ := List.mem_map.mp ha
      exact ⟨i, rfl⟩
  · rw [hmatch]
    apply keyBranches_serves
    · intro entity hentity cell hcell
      obtain ⟨key, hkey, hcolumn, _⟩ := cell_of_listed hentity hcell
      exact ⟨key, hkey, hcolumn⟩
    · intro entity hentity cell hcell
      obtain ⟨_, _, _, hparam⟩ := cell_of_listed hentity hcell
      exact hparam

/-- Filling a hole serves its rule, given that rows have names enough. -/
theorem HoleRule.fill_serves {s : Schema} {rule : HoleRule} {value : Value} {f : Filling}
    (hfits : rule.action.Fits) (h : rule.fill s value = .ok f) : f.Serves rule.action := by
  obtain ⟨hole, path, action⟩ := rule
  cases action with
  | predicate p =>
    cases h
    exact p.fill_serves value
  | guard ignore expr =>
    cases h
    refine ⟨rfl, ?_, nofun, nofun⟩
    intro l hl
    left
    split at hl
    · rw [Filling.expr, Fragment.leaves, Expr.collect_tautology] at hl
      cases hl
    · exact hl
  | order expr =>
    obtain ⟨direction, _, h⟩ := except_bind_ok.mp h
    cases h
    refine ⟨rfl, ?_, nofun, nofun⟩
    intro l hl
    rw [Fragment.leaves, List.flatMap_singleton] at hl
    exact Or.inl hl
  | dynamicOrder first others =>
    obtain ⟨terms, hterms, h⟩ := except_bind_ok.mp h
    cases h
    refine ⟨rfl, ?_, nofun, nofun⟩
    rw [Fragment.leaves, leaves_dynamicOrder hterms]
    exact nofun
  | assign column param ignore =>
    rcases HoleRule.fill_assign h with ⟨_, rfl⟩ | ⟨_, rfl⟩
    · refine ⟨rfl, nofun, nofun, ?_⟩
      intro name hname
      rw [List.mem_singleton.mp hname]
      exact Or.inl rfl
    · refine ⟨rfl, ?_, nofun, nofun⟩
      intro l hl
      rw [Fragment.leaves, List.flatMap_singleton, Assignment.boundLeaves, Expr.collect,
        Collector.leaves_param, List.mem_singleton] at hl
      exact Or.inr ⟨param, hl, Or.inr ⟨rfl, rfl⟩⟩
  | rows source => exact RowsSource.fill_serves hfits h
  | keyMatch columns base =>
    cases h
    exact keyMatch_serves columns base value

end ShapeSql
