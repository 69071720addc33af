import Mathlib.Data.List.Pairwise
import ShapeSql.Proofs.Plan.WindowRows

namespace ShapeSql

open Sql Planning

namespace Sql

/-- The rows that a join adds to a tuple of what stands before it. -/
def Join.found (j : Join) (w : World) (outer : Env) (t : Tuple) : List Row :=
  (j.factor.rows w outer).filter fun row =>
    j.condition.holds w ((t ++ [(j.factor.reference, row)]) :: outer)

/-- Whatever stands before it, each join of the source matches one row at most. -/
def Source.AddsOne (s : Source) (w : World) (outer : Env) : Prop :=
  ∀ before j after, s.joins = before ++ j :: after →
    ∀ t ∈ sourceTuples w outer (some ⟨s.base, before⟩), (j.found w outer t).length ≤ 1

theorem joinsFilled_eq (f : HoleFiller) (js : List Join) : joinsFilled f js =
    js.map fun j => ⟨j.kind, j.factor.filled f, j.condition.filled f⟩ := by
  induction js with
  | nil => rw [joinsFilled, List.map_nil]
  | cons j js ih =>
    obtain ⟨kind, factor, condition⟩ := j
    rw [joinsFilled, ih, List.map_cons]

/-- Rows that tell no two keys the same tell none the same in another order either. -/
theorem Dialect.keysApart_perm (d : Dialect) (key : List Column) {rows others : List Row}
    (h : rows.Perm others) : (rows.Pairwise fun a b => ¬d.sameKey key a b) ↔
      others.Pairwise fun a b => ¬d.sameKey key a b := by
  apply h.pairwise_iff
  intro a b hapart hsame
  exact hapart fun column hcolumn => d.equal.symm (hsame column hcolumn)

end Sql

namespace Planner

variable {p : Planner} {relations : Relations} {f : HoleFiller} {w : World} {outer : Env}
  {d d' : Draft} {filters : List Filter} {order : List OrderItem}

section Joins

variable {v : Tree.Visit Relation} {before after vs : List (Tree.Visit Relation)} {t u : Tuple}

theorem Rooted.of_append {names : List String} (h : Rooted names (before ++ vs)) :
    Rooted (names ++ aliasesOf before) vs := by
  induction before generalizing names with
  | nil =>
    rw [aliasesOf_nil, List.append_nil]
    exact h
  | cons first before ih =>
    rw [aliasesOf_cons, List.append_cons]
    exact ih h.2

/-- The rows that the join of a place adds are those of its table that match the place above it. -/
theorem found_join (f : HoleFiller) (kind : JoinKind) (v : Tree.Visit Relation) (t : Tuple) :
    Join.found ⟨kind, (p.factor v.label).filled f, (p.joinCondition v).filled f⟩ w outer t =
      p.matched w outer t v := by
  apply List.filter_congr
  intro row _
  exact p.holds_joinCondition f w ((t ++ [(v.label.aliasName, row)]) :: outer) v

/-- Where each of the places joined shows a single row, each join adds one row at most. -/
theorem addsOne_joins (kind : JoinKind) {r : Relation} (hsingle : ∀ v ∈ vs, p.Single w v)
    (hrooted : Rooted [r.aliasName] vs) (hapart : Apart ([r.aliasName] ++ aliasesOf vs)) :
    Source.AddsOne ⟨(p.factor r).filled f, joinsFilled f (p.joins kind vs)⟩ w outer := by
  intro front j rest hjoins t ht
  simp only [joinsFilled_eq, joins, List.map_map] at hjoins
  obtain ⟨before, behind, rfl, hfront, hbehind⟩ := List.map_eq_append_iff.mp hjoins
  obtain ⟨v, after, rfl, hjoin, -⟩ := List.map_eq_cons_iff.mp hbehind
  have hfilled : joinsFilled f (p.joins kind before) = front := by
    rw [joinsFilled_eq, joins, List.map_map]
    exact hfront
  rw [← hjoin, Function.comp_apply, found_join]
  have hparent : parentAlias v ∈ [r.aliasName] ++ aliasesOf before := hrooted.of_append.1
  have hother : ∀ name ∈ [r.aliasName] ++ aliasesOf before,
      sameName name v.label.aliasName = false := by
    intro name hname
    rw [aliasesOf, List.map_append, ← List.append_assoc] at hapart
    exact hapart.sameName_eq_false hname List.mem_cons_self
  have hnames : t.names = [r.aliasName] ++ aliasesOf before := by
    rw [sourceTuples, ← hfilled] at ht
    obtain ⟨row, _, ht⟩ := List.mem_flatMap.mp ht
    rw [joinsTuples_joins] at ht
    obtain ⟨more, rfl, hmore⟩ := exists_of_mem_extensions ht
    rw [Tuple.names_append, hmore]
    rfl
  rw [← hnames] at hparent hother
  have hv : v ∈ before ++ v :: after := List.mem_append_right _ List.mem_cons_self
  exact hsingle v hv outer t hparent hother

/-- Each join inside of a window adds one row at most. -/
theorem addsOne_window (f : HoleFiller) (outer : Env) (hs : p.schema.Sound) (hwired : relations.Wired p.schema p.table)
    (hkeyed : w.database.Keyed w.dialect p.schema) :
    Source.AddsOne ⟨(p.factor relations.root).filled f,
      joinsFilled f (p.joins .left (joinedVisits relations Relations.reachedToOne))⟩ w outer := by
  apply addsOne_joins
  · intro v hv
    rw [joinedVisits_filter] at hv
    obtain ⟨hjoined, hreached⟩ := List.mem_filter.mp hv
    exact single_joinedVisits hs hwired hkeyed v hjoined hreached
  · exact rooted_reached hwired
  · exact apart_joinedVisits hwired _

end Joins

section Windows

/-- Paging a query adds the key to its ordering and two bounds, whatever the query is. -/
theorem page_inv {q paged : Query} {aliasName : String}
    (hrun : (p.page q aliasName).run d = .ok (paged, d')) :
    ∃ offset fetch, paged = { q with orderBy := q.orderBy ++ p.keyTerms aliasName, offset, fetch } ∧
      ∀ other : Query, (p.page other aliasName).run d =
        .ok ({ other with orderBy := other.orderBy ++ p.keyTerms aliasName, offset, fetch }, d') := by
  simp only [page, run_bind_ok, run_pure_ok] at hrun ⊢
  obtain ⟨offset, between, hoffset, fetch, after, hfetch, rfl, rfl⟩ := hrun
  refine ⟨offset, fetch, rfl, ?_⟩
  intro other
  exact ⟨offset, between, hoffset, fetch, after, hfetch, rfl, rfl⟩

/-- The page of keys joined back to the output reads it in one place only. -/
theorem frame_eq (p : Planner) (relations : Relations) :
    ∃ joins, ∀ window, p.frame relations window = ⟨.derived window p.windowAlias, joins⟩ := by
  refine ⟨[⟨.inner, p.factor relations.root,
    keyEq p.windowAlias relations.root.aliasName p.table.keyColumns⟩] ++
      p.joins .left (joinedVisits relations fun _ => true), ?_⟩
  intro window
  rw [frame, Source.of, Source.join, joinAll_eq]
  rfl

/-- The keys of the roots that pass, sorted and cut to a page. -/
def keyPage (p : Planner) (relations : Relations) (filters : List Filter) (order : List OrderItem)
    (offset fetch : Option Expr) : Query :=
  { p.keyQuery relations filters with
    orderBy := order ++ p.keyTerms relations.root.aliasName, offset, fetch }

/-- The output of the roots whose keys are on the page. -/
def pageOutput (p : Planner) (relations : Relations) (filters : List Filter)
    (order : List OrderItem) (offset fetch : Option Expr) : Query :=
  { p.outputQuery relations (outerFilters relations filters)
      (p.frame relations (p.keyPage relations filters order offset fetch)) with
    orderBy := order ++ p.keyTerms relations.root.aliasName }

/-- A window is planned for tables with a key, and its bounds are those of the arguments. -/
theorem keyWindow_inv {query : Query}
    (hrun : (p.keyWindow relations filters order).run d = .ok (query, d')) :
    p.table.hasKey = true ∧ ∃ offset fetch between,
      (pageBound p.arguments.offset).run d = .ok (offset, between) ∧
      (pageBound p.arguments.fetch).run between = .ok (fetch, d') ∧
      query = p.pageOutput relations filters order offset fetch := by
  unfold keyWindow at hrun
  split at hrun
  · simp only [run_bind_ok, run_throw_ok, false_and, exists_false] at hrun
  · rename_i hkey
    refine ⟨by simpa using hkey, ?_⟩
    simp only [run_bind_ok, run_pure_ok, page] at hrun
    obtain ⟨window, _, ⟨offset, between, hoffset, fetch, _, hfetch, rfl, rfl⟩, rfl, rfl⟩ := hrun
    exact ⟨offset, fetch, between, hoffset, hfetch, rfl⟩

/-- What the output of a page reads first is the page, under its alias. -/
theorem source_pageOutput (f : HoleFiller) (p : Planner) (relations : Relations)
    (filters : List Filter) (order : List OrderItem) (offset fetch : Option Expr) :
    ∃ joins, ((p.pageOutput relations filters order offset fetch).filled f).source =
      some ⟨.derived ((p.keyPage relations filters order offset fetch).filled f) p.windowAlias,
        joins⟩ := by
  obtain ⟨joins, hframe⟩ := p.frame_eq relations
  obtain ⟨filter, hquery⟩ := p.outputQuery_eq relations (outerFilters relations filters)
    (p.frame relations (p.keyPage relations filters order offset fetch))
  refine ⟨joinsFilled f joins, ?_⟩
  rw [pageOutput, hquery, Query.filled]
  show sourceFilled f (some (p.frame relations _)) = _
  rw [hframe, sourceFilled, Factor.filled]

/-- Inside of the window the root and the places reached by to-one steps are joined. -/
theorem source_keyPage (f : HoleFiller) (p : Planner) (relations : Relations)
    (filters : List Filter) (order : List OrderItem) (offset fetch : Option Expr) :
    ((p.keyPage relations filters order offset fetch).filled f).source =
      some ⟨(p.factor relations.root).filled f,
        joinsFilled f (p.joins .left (joinedVisits relations Relations.reachedToOne))⟩ := by
  obtain ⟨filter, hquery⟩ := p.keyQuery_eq relations filters
  rw [keyPage, hquery, Query.filled]
  show sourceFilled f (some (p.fromClause relations Relations.reachedToOne)) = _
  rw [fromClause, Source.of, joinAll_eq, List.nil_append, sourceFilled]

/-- The key of a root is what its row of the page says. -/
theorem sameKey_keyRow (a b : Row) :
    w.dialect.sameKey p.table.keyColumns (p.keyRow a) (p.keyRow b) ↔
      w.dialect.sameKey p.table.keyColumns a b := by
  constructor
  · intro h column hcolumn
    rw [← p.cell_keyRow a hcolumn, ← p.cell_keyRow b hcolumn]
    exact h column hcolumn
  · intro h column hcolumn
    rw [p.cell_keyRow a hcolumn, p.cell_keyRow b hcolumn]
    exact h column hcolumn

/-- Before it is cut, a window goes through keys of roots, and through no key twice. -/
theorem rows_keyPage (f : HoleFiller) (filters : List Filter) (hs : p.schema.Sound) (htable : p.table ∈ p.schema.tables)
    (hhasKey : p.table.hasKey = true) (hwired : relations.Wired p.schema p.table)
    (hkeyed : w.database.Keyed w.dialect p.schema) (order : List OrderItem) :
    ∃ roots : List Row, roots.Sublist (w.database.tables p.table.name) ∧
      (Query.rows w [] ((p.keyPage relations filters order none none).filled f)).Perm
        (roots.map p.keyRow) ∧
      (Query.rows w [] ((p.keyPage relations filters order none none).filled f)).Pairwise
        fun a b => ¬w.dialect.sameKey p.table.keyColumns a b := by
  have hroot := tableRows_root hs htable hwired w
  let roots := (p.tableRows w relations.root).filter (p.passingWindow relations f w filters)
  have hsublist : roots.Sublist (w.database.tables p.table.name) := by
    rw [← hroot]
    exact List.filter_sublist
  have hperm : (Query.rows w [] ((p.keyPage relations filters order none none).filled f)).Perm
      (roots.map p.keyRow) :=
    rows_keyQuery hs hwired hkeyed (order ++ p.keyTerms relations.root.aliasName)
      (wholePage_none f w _)
  refine ⟨roots, hsublist, hperm, ?_⟩
  have hapart : (roots.map p.keyRow).Pairwise fun a b =>
      ¬w.dialect.sameKey p.table.keyColumns a b := by
    rw [List.pairwise_map]
    simp only [sameKey_keyRow]
    exact (hkeyed.unique p.table htable hhasKey).sublist hsublist
  exact (Dialect.keysApart_perm _ _ hperm).mpr hapart

end Windows

/-- The relations that a select is planned over in the end follow the links of the schema. -/
theorem select_wired (hs : p.schema.Sound) (hkeyed : p.schema.Keyed)
    (htable : p.table ∈ p.schema.tables) (hd : d.Sound) {query : Query} {relations : Relations}
    (hrun : p.select.run d = .ok ((query, relations), d')) : relations.Wired p.schema p.table := by
  obtain ⟨start, filters, joined, _, _, _, hstart, hfilters, rfl, _, _⟩ := p.select_inv hrun
  exact (selectFilters_aimed False False hs hkeyed hkeyed.catalog_knows htable hd
    (outputRelations_wired hs hkeyed htable hstart) hfilters False.elim).1

end Planner

end ShapeSql
