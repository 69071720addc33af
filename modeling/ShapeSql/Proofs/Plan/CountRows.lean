import Mathlib.Data.List.Flatten
import ShapeSql.Proofs.Plan.WindowKeys

namespace ShapeSql

open Sql Planning

section Repetitions

variable {α β : Type} {r : β → β → Bool}

/-- Repeated values are kept once each. -/
theorem eraseDupsBy_flatMap_replicate (count : α → Nat) (g : α → β) {items : List α}
    (hrefl : ∀ a ∈ items, r (g a) (g a) = true)
    (hapart : items.Pairwise fun a b => r (g b) (g a) = false) :
    (items.flatMap fun a => List.replicate (count a) (g a)).eraseDupsBy r =
      (items.filter fun a => decide (0 < count a)).map g := by
  induction items with
  | nil => rw [List.flatMap_nil, List.eraseDupsBy_nil, List.filter_nil, List.map_nil]
  | cons a items ih =>
    rw [List.forall_mem_cons] at hrefl
    rw [List.pairwise_cons] at hapart
    have hothers := ih hrefl.2 hapart.2
    rw [List.flatMap_cons]
    cases hcount : count a with
    | zero =>
      rw [List.replicate_zero, List.nil_append, hothers, List.filter_cons_of_neg (by simp [hcount])]
    | succ n =>
      have hkept : ((List.replicate n (g a) ++ items.flatMap fun a =>
          List.replicate (count a) (g a)).filter fun b => decide (r b (g a) = false)) =
            items.flatMap fun a => List.replicate (count a) (g a) := by
        rw [List.filter_append, List.filter_eq_nil_iff.mpr, List.nil_append, List.filter_eq_self.mpr]
        · intro b hb
          obtain ⟨other, hother, hb⟩ := List.mem_flatMap.mp hb
          rw [List.eq_of_mem_replicate hb]
          exact decide_eq_true (hapart.1 other hother)
        · intro b hb
          rw [List.eq_of_mem_replicate hb, hrefl.1]
          exact Bool.false_ne_true
      rw [List.replicate_succ, List.cons_append, List.eraseDupsBy_cons, hkept, hothers,
        List.filter_cons_of_pos (by simp [hcount]), List.map_cons]

/-- Parts of one element at most have as many elements together as there are parts with any. -/
theorem length_flatMap_of_le_one {g : α → List β} {items : List α}
    (h : ∀ a ∈ items, (g a).length ≤ 1) :
    (items.flatMap g).length = items.countP fun a => decide (0 < (g a).length) := by
  induction items with
  | nil => rfl
  | cons a items ih =>
    rw [List.forall_mem_cons] at h
    rw [List.flatMap_cons, List.length_append, ih h.2, List.countP_cons]
    by_cases hpos : 0 < (g a).length
    · rw [if_pos (decide_eq_true hpos)]
      omega
    · rw [if_neg (by simpa using hpos)]
      omega

end Repetitions

namespace Sql

/-- Without an ordering the rows of a query come as they are kept. -/
theorem Query.rows_unordered {w : World} {outer : Env} {q : Query} (horder : q.orderBy = [])
    (hoffset : q.offset = none) (hfetch : q.fetch = none) :
    q.rows w outer = projectRows w outer q.distinct q.projection (q.kept w outer) := by
  obtain ⟨distinct, projection, source, filter, groupBy, orderBy, offset, fetch⟩ := q
  simp only at horder hoffset hfetch
  subst horder hoffset hfetch
  have hsorted : ∀ tuples : List Tuple, (tuples.insertionSort fun t u =>
      w.dialect.precedes (sortKey w (t :: outer) []) (sortKey w (u :: outer) []) = true) = tuples := by
    intro tuples
    apply List.Pairwise.insertionSort_eq
    exact List.pairwise_of_forall fun _ _ => rfl
  rw [Query.rows]
  simp only [hsorted]
  rfl

end Sql

namespace Planner

variable {p : Planner} {relations : Relations} {f : HoleFiller} {w : World} {filters : List Filter}

/-- What a count is made of: a row of each tuple that passes, the key of its root if there is one. -/
def countedQuery (p : Planner) (relations : Relations) (filters : List Filter) : Query :=
  let base := Query.reading (p.fromClause relations fun _ => true)
  let counted :=
    if p.table.hasKey then p.projectKey { base with distinct := true } relations.root.aliasName
    else base.project (.int 1) (some "__one")
  filters.foldl (fun query filter => query.restrict filter.expr) counted

/-- The columns that a count tells its rows apart by. -/
def countedColumns (p : Planner) (relations : Relations) : List Projected :=
  if p.table.hasKey then p.table.keyColumns.map fun column =>
    ⟨.columnOf relations.root.aliasName column.name, some column.name⟩
  else [⟨.int 1, some "__one"⟩]

theorem countQuery_eq (p : Planner) (relations : Relations) (filters : List Filter) :
    p.countQuery relations filters =
      (Query.reading (.of (.derived (p.countedQuery relations filters) "__count"))).project .countAll
        none := rfl

theorem countedQuery_eq (p : Planner) (relations : Relations) (filters : List Filter) :
    ∃ filter, p.countedQuery relations filters =
      { Query.reading (p.fromClause relations fun _ => true) with
        distinct := p.table.hasKey, projection := p.countedColumns relations, filter } := by
  unfold countedQuery countedColumns
  cases p.table.hasKey with
  | false =>
    obtain ⟨filter, hfilter⟩ := Query.foldl_restrict_eq Filter.expr filters
      ((Query.reading (p.fromClause relations fun _ => true)).project (.int 1) (some "__one"))
    exact ⟨filter, hfilter⟩
  | true =>
    obtain ⟨filter, hfilter⟩ := Query.foldl_restrict_eq Filter.expr filters
      (p.projectKey { Query.reading (p.fromClause relations fun _ => true) with distinct := true }
        relations.root.aliasName)
    refine ⟨filter, ?_⟩
    simp only [if_true]
    rw [hfilter, projectKey, Query.foldl_project_eq]
    rfl

theorem source_countedQuery (f : HoleFiller) (p : Planner) (relations : Relations)
    (filters : List Filter) : ((p.countedQuery relations filters).filled f).source =
      some ⟨(p.factor relations.root).filled f,
        joinsFilled f (p.joins .left (joinedVisits relations fun _ => true))⟩ := by
  obtain ⟨filter, hquery⟩ := p.countedQuery_eq relations filters
  rw [hquery, Query.filled]
  show sourceFilled f (some (p.fromClause relations fun _ => true)) = _
  rw [fromClause, Source.of, joinAll_eq, List.nil_append, sourceFilled]

/-- The tuples of a root that are counted. -/
def countedTuples (p : Planner) (f : HoleFiller) (w : World) (relations : Relations)
    (filters : List Filter) (row : Row) : List Tuple :=
  (p.outputTuples w relations row).filter
    (((p.countedQuery relations filters).filled f).passes w [])

theorem kept_countedQuery (f : HoleFiller) (p : Planner) (w : World) (relations : Relations)
    (filters : List Filter) : ((p.countedQuery relations filters).filled f).kept w [] =
      (p.tableRows w relations.root).flatMap (p.countedTuples f w relations filters) := by
  obtain ⟨filter, hquery⟩ := p.countedQuery_eq relations filters
  have hsource : (p.countedQuery relations filters).source =
      some (p.fromClause relations fun _ => true) := by rw [hquery]; rfl
  rw [kept_filled, hsource, sourceTuples_fromClause, List.filter_flatMap]
  rfl

/-- The cells of a root are those of all its tuples. -/
theorem cell_outputTuples {row : Row} {t : Tuple} (ht : t ∈ p.outputTuples w relations row)
    (name : String) : Env.cell [t] relations.root.aliasName name = row.cell name := by
  rw [← sameCells_extension ht _ (List.mem_singleton.mpr rfl),
    Env.cell_of_row? (Tuple.row?_cons_self _ _ _)]

/-- A row of a count for each of the tuples that are kept, repetitions removed if there is a key. -/
theorem rows_countedQuery (f : HoleFiller) (p : Planner) (w : World) (relations : Relations)
    (filters : List Filter) : ((p.countedQuery relations filters).filled f).rows w [] =
      projectRows w [] p.table.hasKey (p.countedColumns relations)
        ((p.tableRows w relations.root).flatMap (p.countedTuples f w relations filters)) := by
  obtain ⟨filter, hquery⟩ := p.countedQuery_eq relations filters
  have hprojection : ((p.countedQuery relations filters).filled f).projection =
      p.countedColumns relations := by
    have hcolumns : (p.countedQuery relations filters).projection = p.countedColumns relations := by
      rw [hquery]
    rw [← hcolumns]
    apply filled_projection
    intro projected hmem
    rw [hcolumns, countedColumns] at hmem
    split at hmem
    · obtain ⟨column, _, rfl⟩ := List.mem_map.mp hmem
      rw [Expr.columnOf, Expr.filled]
    · rw [List.mem_singleton.mp hmem, Expr.filled]
  have hdistinct : ((p.countedQuery relations filters).filled f).distinct = p.table.hasKey := by
    rw [hquery]
    rfl
  have hplain : ((p.countedQuery relations filters).filled f).orderBy = [] ∧
      ((p.countedQuery relations filters).filled f).offset = none ∧
      ((p.countedQuery relations filters).filled f).fetch = none := by
    rw [hquery]
    exact ⟨rfl, rfl, rfl⟩
  rw [Query.rows_unordered hplain.1 hplain.2.1 hplain.2.2, hdistinct, hprojection,
    kept_countedQuery]

/-- No projected column of a count counts by itself. -/
theorem countedColumns_plain (p : Planner) (relations : Relations) :
    ((p.countedColumns relations).any fun projected => projected.expr.isCount) = false := by
  refine List.any_eq_false.mpr fun projected hmem => ?_
  rw [countedColumns] at hmem
  split at hmem
  · obtain ⟨column, _, rfl⟩ := List.mem_map.mp hmem
    exact Bool.false_ne_true
  · rw [List.mem_singleton.mp hmem]
    exact Bool.false_ne_true

/-- Rows of keys are told apart as the keys are. -/
theorem sameRow_keyRow (htable : p.table ∈ p.schema.tables)
    (hkeyed : w.database.Keyed w.dialect p.schema) {a b : Row}
    (ha : a ∈ w.database.tables p.table.name) (hb : b ∈ w.database.tables p.table.name) :
    w.sameRow (p.keyRow a) (p.keyRow b) = true ↔ w.dialect.sameKey p.table.keyColumns a b := by
  have hzip : ∀ key : List Column, ((key.map fun column => (column.name, a.cell column.name)).zip
      (key.map fun column => (column.name, b.cell column.name))) =
        key.map fun column => ((column.name, a.cell column.name), (column.name, b.cell column.name)) := by
    intro key
    exact List.zip_map'
  rw [World.sameRow, keyRow, keyRow, hzip, List.length_map, List.length_map, beq_self_eq_true,
    Bool.true_and, List.all_map, List.all_eq_true]
  constructor
  · intro h column hcolumn
    have hcell := h column hcolumn
    rw [Function.comp_apply, World.sameCell, hkeyed.present _ htable _ ha _ hcolumn,
      hkeyed.present _ htable _ hb _ hcolumn] at hcell
    exact hcell
  · intro h column hcolumn
    rw [Function.comp_apply, World.sameCell, hkeyed.present _ htable _ ha _ hcolumn,
      hkeyed.present _ htable _ hb _ hcolumn]
    exact h column hcolumn

/-- The number of rows of a root with a key: a row of each root that has a tuple that passes. -/
theorem rows_countedQuery_keyed (hs : p.schema.Sound) (htable : p.table ∈ p.schema.tables)
    (hwired : relations.Wired p.schema p.table) (hkeyed : w.database.Keyed w.dialect p.schema)
    (hhasKey : p.table.hasKey = true) : ((p.countedQuery relations filters).filled f).rows w [] =
      ((p.tableRows w relations.root).filter fun row =>
        decide (0 < (p.countedTuples f w relations filters row).length)).map p.keyRow := by
  have hroot := tableRows_root hs htable hwired w
  have hrows : (((p.tableRows w relations.root).flatMap
      (p.countedTuples f w relations filters)).map fun t =>
        (p.countedColumns relations).map (Projected.cell w [t])) =
      (p.tableRows w relations.root).flatMap fun row =>
        List.replicate (p.countedTuples f w relations filters row).length (p.keyRow row) := by
    rw [List.map_flatMap]
    apply List.flatMap_congr
    intro row _
    rw [← List.map_const']
    apply List.map_congr_left
    intro t ht
    rw [countedColumns, if_pos hhasKey, List.map_map, keyRow]
    apply List.map_congr_left
    intro column _
    rw [Function.comp_apply, Projected.cell, Expr.columnOf, Expr.value,
      cell_outputTuples (List.mem_of_mem_filter ht)]
    rfl
  rw [rows_countedQuery, projectRows, countedColumns_plain, if_neg Bool.false_ne_true, hrows,
    if_pos hhasKey]
  -- The tuples of a root show its key as often as there are, and no other root shows the same key.
  apply eraseDupsBy_flatMap_replicate
  · intro row hrow
    rw [hroot] at hrow
    exact (sameRow_keyRow htable hkeyed hrow hrow).mpr fun _ _ => w.dialect.equal.refl _
  · rw [hroot]
    have hunique := hkeyed.unique p.table htable hhasKey
    refine List.Pairwise.imp_of_mem ?_ hunique
    intro a b ha hb hapart
    rw [Bool.eq_false_iff]
    intro hsame
    refine hapart fun column hcolumn => w.dialect.equal.symm ?_
    exact (sameRow_keyRow htable hkeyed hb ha).mp hsame column hcolumn

/-- A root has one tuple where all navigations lead to one row at most. -/
theorem outputTuples_single (hs : p.schema.Sound) (hwired : relations.Wired p.schema p.table)
    (hkeyed : w.database.Keyed w.dialect p.schema)
    (hone : ∀ r ∈ relations.all, r.isToOne = true) (row : Row) :
    ∃ t, p.outputTuples w relations row = [t] := by
  have hreached : ∀ v ∈ relations.visits, Relations.reachedToOne v = true := by
    intro v hv
    obtain ⟨hlabel, hancestors, _⟩ := Tree.all_of_visitsBelow relations.tree nofun hone v hv
    rw [Relations.reachedToOne, Tree.Visit.lineage, List.all_cons, hlabel, Bool.true_and,
      List.all_eq_true]
    exact hancestors
  apply extensions_single
  · intro v hv
    exact single_joinedVisits hs hwired hkeyed v hv (hreached v (List.mem_of_mem_filter hv))
  · exact rooted_joinedVisits hwired fun _ _ _ _ => rfl
  · exact apart_joinedVisits hwired _

/-- A root matches if a tuple of it passes. -/
def rootPasses (p : Planner) (f : HoleFiller) (w : World) (relations : Relations)
    (filters : List Filter) (row : Row) : Bool :=
  (joinsTuples w [] (joinsFilled f (p.joins .left (joinedVisits relations fun _ => true)))
    [(relations.root.aliasName, row)]).any (((p.countedQuery relations filters).filled f).passes w [])

theorem rootPasses_iff (f : HoleFiller) (p : Planner) (w : World) (relations : Relations)
    (filters : List Filter) (row : Row) : p.rootPasses f w relations filters row =
      decide (0 < (p.countedTuples f w relations filters row).length) := by
  rw [rootPasses, joinsTuples_joins, Bool.eq_iff_iff, List.any_eq_true, decide_eq_true_eq,
    List.length_pos_iff_exists_mem]
  simp only [countedTuples, List.mem_filter]
  rfl

/-- As many rows are counted as there are roots that match, if roots have a key or lead to one row at
most wherever they lead. -/
theorem length_countedQuery (hs : p.schema.Sound) (htable : p.table ∈ p.schema.tables)
    (hwired : relations.Wired p.schema p.table) (hkeyed : w.database.Keyed w.dialect p.schema)
    (hone : p.table.hasKey = true ∨ ∀ r ∈ relations.all, r.isToOne = true) :
    (((p.countedQuery relations filters).filled f).rows w []).length =
      (w.database.tables p.table.name).countP (p.rootPasses f w relations filters) := by
  have hroot := tableRows_root hs htable hwired w
  have hpasses : p.rootPasses f w relations filters =
      fun row => decide (0 < (p.countedTuples f w relations filters row).length) := by
    funext row
    exact p.rootPasses_iff f w relations filters row
  rw [← hroot, hpasses]
  cases hhasKey : p.table.hasKey with
  | true =>
    rw [rows_countedQuery_keyed hs htable hwired hkeyed hhasKey, List.length_map,
      List.countP_eq_length_filter]
  | false =>
    have hone := hone.resolve_left (by rw [hhasKey]; exact Bool.false_ne_true)
    rw [rows_countedQuery, projectRows, countedColumns_plain, if_neg Bool.false_ne_true, hhasKey,
      if_neg Bool.false_ne_true, List.length_map]
    apply length_flatMap_of_le_one
    intro row _
    obtain ⟨t, ht⟩ := outputTuples_single hs hwired hkeyed hone row
    rw [countedTuples, ht]
    exact List.length_filter_le _ [t]

/-- The value that a count selects. -/
theorem rows_countQuery (hs : p.schema.Sound) (htable : p.table ∈ p.schema.tables)
    (hwired : relations.Wired p.schema p.table) (hkeyed : w.database.Keyed w.dialect p.schema)
    (hone : p.table.hasKey = true ∨ ∀ r ∈ relations.all, r.isToOne = true) :
    ((p.countQuery relations filters).filled f).rows w [] = [[("", .i64 (Int64.ofNat
      ((w.database.tables p.table.name).countP (p.rootPasses f w relations filters))))]] := by
  let inner := (p.countedQuery relations filters).filled f
  let outer := (Query.reading (.of (.derived inner "__count"))).project .countAll none
  have hquery : (p.countQuery relations filters).filled f = outer := by
    rw [countQuery_eq]
    rfl
  have hkept : outer.kept w [] = (inner.rows w []).map fun row => [("__count", row)] := by
    have htuples : outer.kept w [] = ((inner.rows w []).flatMap fun row =>
        joinsTuples w [] [] [("__count", row)]).filter fun _ => true := rfl
    rw [htuples, List.filter_true, List.map_eq_flatMap]
    apply List.flatMap_congr
    intro row _
    rw [joinsTuples]
  have hlength : (outer.kept w []).length =
      (w.database.tables p.table.name).countP (p.rootPasses f w relations filters) := by
    rw [hkept, List.length_map]
    exact length_countedQuery hs htable hwired hkeyed hone
  rw [hquery, Query.rows_unordered rfl rfl rfl, ← hlength]
  rfl

end Planner

end ShapeSql
