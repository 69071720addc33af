import ShapeSql.Proofs.Plan.Tuples
import ShapeSql.Proofs.Plan.WindowSites

/-!
What windows return. The inside of a window has one tuple for each root, so the page is made of the keys
of the roots that pass there; outside, each key joins its root again and the root joins what the full
output joins. A root passes inside whenever one of its joined tuples passes all filters: those on to-one
places compare the same rows on both sides, and a row that passes a filter on a collection is the one
that the `EXISTS` asks for. So a page that leaves nothing out has the rows of the output without it.
-/

namespace ShapeSql

open Sql Planning

namespace Sql

section Queries

/-- Restricting a query changes its condition only. -/
theorem Query.foldl_restrict_eq {α : Type} (condition : α → Expr) (items : List α) (q : Query) :
    ∃ filter, items.foldl (fun q a => q.restrict (condition a)) q = { q with filter } := by
  induction items generalizing q with
  | nil =>
    obtain ⟨distinct, projection, source, filter, groupBy, orderBy, offset, fetch⟩ := q
    exact ⟨filter, rfl⟩
  | cons a items ih =>
    obtain ⟨filter, hfilter⟩ := ih (q.restrict (condition a))
    exact ⟨filter, by rw [List.foldl_cons, hfilter]; rfl⟩

theorem Query.foldl_project_eq {α : Type} (expr : α → Expr) (name : α → String) (items : List α)
    (q : Query) : items.foldl (fun q a => q.project (expr a) (some (name a))) q =
      { q with projection := q.projection ++ items.map fun a => ⟨expr a, some (name a)⟩ } := by
  induction items generalizing q with
  | nil =>
    obtain ⟨distinct, projection, source, filter, groupBy, orderBy, offset, fetch⟩ := q
    rw [List.foldl_nil, List.map_nil, List.append_nil]
  | cons a items ih =>
    rw [List.foldl_cons, ih, Query.project, List.map_cons, List.append_assoc, List.singleton_append]

end Queries

end Sql

namespace Planner

variable {p : Planner} {relations : Relations} {f : HoleFiller} {w : World} {outer : Env}

section Sources

theorem joinedVisits_filter (relations : Relations) (accepts : Tree.Visit Relation → Bool) :
    joinedVisits relations accepts = (joinedVisits relations fun _ => true).filter accepts := by
  rw [joinedVisits, joinedVisits, List.filter_filter]
  apply List.filter_congr
  intro v _
  rw [Bool.and_true, Bool.and_comm]

theorem joinAll_eq (p : Planner) (kind : JoinKind) (accepts : Tree.Visit Relation → Bool)
    (base : Factor) (first : List Join) (relations : Relations) :
    p.joinAll kind accepts ⟨base, first⟩ relations.visits =
      ⟨base, first ++ p.joins kind (joinedVisits relations accepts)⟩ :=
  p.foldl_join_eq kind (joinedVisits relations accepts) base first

/-- The tuples of a FROM clause extend the rows of the root. -/
theorem sourceTuples_fromClause (f : HoleFiller) (p : Planner) (relations : Relations)
    (accepts : Tree.Visit Relation → Bool) (w : World) (outer : Env) :
    sourceTuples w outer (sourceFilled f (some (p.fromClause relations accepts))) =
      (p.tableRows w relations.root).flatMap fun row =>
        p.extensions w outer .left (joinedVisits relations accepts)
          [(relations.root.aliasName, row)] := by
  rw [fromClause, Source.of, joinAll_eq, List.nil_append, sourceFilled, sourceTuples]
  simp only [joinsTuples_joins]
  rfl

end Sources

section Filters

/-- The truth of a condition depends on the cells of one row source. -/
def DependsOn (f : HoleFiller) (w : World) (aliasName : String) (e : Expr) : Prop :=
  ∀ env env', SameCells [aliasName] env env' → (e.filled f).holds w env = (e.filled f).holds w env'

/-- The filter compares a relation, which is reached by to-one steps if it names none. -/
def Compares (relations : Relations) (f : HoleFiller) (w : World) (filter : Filter) : Prop :=
  ∃ v ∈ relations.visits, DependsOn f w v.label.aliasName filter.expr ∧
    (filter.target = some v.label.id ∨ filter.target = none ∧ Relations.reachedToOne v = true)

/-- The filter is on a collection. -/
def OnCollection (relations : Relations) (filter : Filter) : Bool :=
  filter.target.any fun id => !relations.isToOne id

/-- What the window asks for in place of a filter. -/
def windowCondition (p : Planner) (relations : Relations) (filter : Filter) : Expr :=
  match filter.target with
  | some id => if relations.isToOne id then filter.expr else p.existsAlong relations id filter.expr
  | none => filter.expr

theorem windowFilter_eq (p : Planner) (relations : Relations) (q : Query) (filter : Filter) :
    p.windowFilter relations q filter = q.restrict (p.windowCondition relations filter) := by
  unfold windowFilter windowCondition
  cases filter.target with
  | none => rfl
  | some id =>
    cases htoOne : relations.isToOne id with
    | true => simp [htoOne]
    | false => simp [htoOne]

/-- The filters of a window restrict it by what it asks for in their place. -/
theorem foldl_windowFilter (p : Planner) (relations : Relations) (filters : List Filter) (q : Query) :
    filters.foldl (p.windowFilter relations) q =
      filters.foldl (fun q filter => q.restrict (p.windowCondition relations filter)) q := by
  congr 1
  funext q filter
  exact p.windowFilter_eq relations q filter

end Filters

section Exists

/-- The row of a place in a tuple. -/
def rowOf (t : Tuple) (v : Tree.Visit Relation) : Row := (t.row? v.label.aliasName).getD []

/-- Some cell of the row source is not null. -/
def Present (t : Tuple) (aliasName : String) : Prop :=
  ∃ name, (Env.cell [t] aliasName name).isNull = false

/-- The tuple has a row of every collection that is filtered. -/
def Found (relations : Relations) (filters : List Filter) (t : Tuple) : Prop :=
  ∀ filter ∈ filters, ∀ v ∈ relations.visits, filter.target = some v.label.id →
    Relations.reachedToOne v = false → Present t v.label.aliasName

/-- The rows that a tuple has at some places, as a tuple of their own. -/
def alongTuple (t : Tuple) (vs : List (Tree.Visit Relation)) : Tuple :=
  vs.map fun v => (v.label.aliasName, rowOf t v)

theorem row?_alongTuple (t : Tuple) {aliasName : String} (vs : List (Tree.Visit Relation))
    (hmem : aliasName ∈ aliasesOf vs) :
    (alongTuple t vs).row? aliasName = some ((t.row? aliasName).getD []) := by
  induction vs with
  | nil => cases hmem
  | cons v vs ih =>
    rw [alongTuple, List.map_cons]
    cases hname : sameName v.label.aliasName aliasName with
    | true =>
      have hrow : t.row? v.label.aliasName = t.row? aliasName := Tuple.row?_sameName hname
      rw [← hrow, ← Tuple.row?_sameName hname, Tuple.row?_cons_self, rowOf]
    | false =>
      rw [aliasesOf_cons] at hmem
      rcases List.mem_cons.mp hmem with rfl | hrest
      · rw [sameName_self] at hname
        cases hname
      · rw [Tuple.row?_cons_of_ne hname]
        exact ih hrest

/-- Taken from a tuple, the rows of places that it has are read as they are there. -/
theorem sameCells_alongTuple {t : Tuple} {outer : Env} {vs : List (Tree.Visit Relation)}
    (hfound : ∀ v ∈ vs, t.row? v.label.aliasName = some (rowOf t v)) :
    SameCells (aliasesOf vs) (alongTuple t vs :: outer) [t] := by
  intro aliasName hname cell
  obtain ⟨v, hv, rfl⟩ := List.mem_map.mp hname
  rw [Env.cell_of_row? (row?_alongTuple t vs hname), Env.cell_of_row? (hfound v hv), hfound v hv]
  rfl

/-- A name that none of the places has is looked for around their rows. -/
theorem sameCells_around (t : Tuple) {vs : List (Tree.Visit Relation)} {outer : Env}
    {aliasName : String} (hapart : ∀ v ∈ vs, sameName v.label.aliasName aliasName = false) :
    SameCells [aliasName] (alongTuple t vs :: outer) outer := by
  intro name hname cell
  rw [List.mem_singleton.mp hname]
  apply Env.cell_of_none
  apply Tuple.row?_eq_none.mpr
  intro taken htaken
  obtain ⟨entry, hentry, rfl⟩ := List.mem_map.mp htaken
  obtain ⟨v, hv, rfl⟩ := List.mem_map.mp hentry
  exact hapart v hv

/-- The places of a chain are tied to each other, and to what is around, as they are in the tuple. -/
theorem ties_alongTuple {start : Tree.Visit Relation} {steps : List (Tree.Visit Relation)} {t : Tuple}
    {outer : Env} (hchain : Relations.Chain p.schema relations start steps)
    (hfound : ∀ v ∈ steps, t.row? v.label.aliasName = some (rowOf t v))
    (hapart : ∀ v ∈ steps, sameName v.label.aliasName start.label.aliasName = false)
    (hsame : SameCells [start.label.aliasName] outer [t]) :
    ∀ v ∈ steps, p.ties w (alongTuple t steps :: outer) v = p.ties w [t] v := by
  have hinner : SameCells (aliasesOf steps) (alongTuple t steps :: outer) [t] :=
    sameCells_alongTuple hfound
  have habove : SameCells [start.label.aliasName] (alongTuple t steps :: outer) [t] :=
    (sameCells_around t hapart).trans hsame
  have hrooted : Rooted [start.label.aliasName] steps :=
    rooted_of_chain hchain (List.mem_singleton.mpr rfl)
  intro v hv
  apply ties_congr
  intro aliasName hname
  rcases List.mem_cons.mp hname with rfl | hself
  · rcases List.mem_append.mp (hrooted.parent_mem v hv) with hfirst | hstep
    · exact habove _ hfirst
    · exact hinner _ hstep
  · rw [List.mem_singleton.mp hself]
    exact hinner _ (List.mem_map_of_mem hv)

/-- The `EXISTS` along a chain holds, if rows of its places are tied and meet the condition. -/
theorem existsBelow_holds {start first : Tree.Visit Relation} {rest : List (Tree.Visit Relation)}
    {t : Tuple} {outer : Env} {condition : Expr}
    (hchain : Relations.Chain p.schema relations start (first :: rest))
    (hrows : ∀ v ∈ first :: rest, rowOf t v ∈ p.tableRows w v.label)
    (hties : ∀ v ∈ first :: rest, p.ties w (alongTuple t (first :: rest) :: outer) v = true)
    (hcondition : (condition.filled f).holds w (alongTuple t (first :: rest) :: outer) = true) :
    ((p.existsBelow condition (first :: rest)).filled f).holds w outer = true := by
  simp only [existsBelow, Source.of, foldl_join_eq, List.nil_append]
  rw [holds_probed, Bool.bne_false]
  refine List.any_eq_true.mpr ⟨alongTuple t (first :: rest), ?_, ?_⟩
  · show alongTuple t (first :: rest) ∈
      sourceTuples w outer (sourceFilled f (some ⟨p.factor first.label, p.joins .inner rest⟩))
    rw [sourceFilled, sourceTuples]
    refine List.mem_flatMap.mpr ⟨rowOf t first, hrows first List.mem_cons_self, ?_⟩
    rw [joinsTuples_joins]
    refine mem_extensions (t := [(first.label.aliasName, rowOf t first)]) (rowOf t) ?_ ?_
    · exact rooted_of_chain hchain.2.2 (List.mem_singleton.mpr rfl)
    · intro v hv
      exact ⟨hrows v (List.mem_cons_of_mem _ hv), hties v (List.mem_cons_of_mem _ hv)⟩
  · rw [holds_joinCondition, hties first List.mem_cons_self, hcondition]
    rfl

/-- The places of a chain have rows of their tables, if the last one has a cell that is not null. -/
theorem chain_rows {v : Tree.Visit Relation} {t : Tuple} {start : Tree.Visit Relation}
    {steps : List (Tree.Visit Relation)}
    (hchain : Relations.Chain p.schema relations start steps)
    (hown : ∀ v ∈ steps, v.label.isEmbedded = false)
    (hrows : ∀ v ∈ steps, t.row? v.label.aliasName = some [] ∨
      ∃ row ∈ p.tableRows w v.label, t.row? v.label.aliasName = some row ∧
        p.ties w [t] v = true)
    (hlast : steps.getLast?.getD start = v) (hpresent : Present t v.label.aliasName) :
    ∀ v ∈ steps, rowOf t v ∈ p.tableRows w v.label ∧
      t.row? v.label.aliasName = some (rowOf t v) ∧ p.ties w [t] v = true := by
  induction steps generalizing start with
  | nil => exact nofun
  | cons first rest ih =>
    rw [List.forall_mem_cons] at hown hrows
    rw [List.getLast?_cons, Option.getD_some] at hlast
    have hothers := ih hchain.2.2 hown.2 hrows.2 hlast
    have hfirst : Present t first.label.aliasName := by
      cases rest with
      | nil =>
        have hsame : first = v := hlast
        rw [hsame]
        exact hpresent
      | cons second rest =>
        obtain ⟨_, _, htied⟩ := hothers second List.mem_cons_self
        have hbelow := hchain.2.2.2.1
        have hkind : second.label.kind ≠ .embedded := by
          intro hkind
          have hnot := hown.2 second List.mem_cons_self
          rw [Relation.isEmbedded_iff.mpr hkind] at hnot
          cases hnot
        obtain ⟨pair, hpair⟩ := List.exists_mem_of_ne_nil _ (hbelow.2.paired hkind)
        have hcells := World.compare_eq_holds.mp (List.all_eq_true.mp htied pair hpair)
        rw [parentAlias_of_below hbelow] at hcells
        exact ⟨_, hcells.1⟩
    refine List.forall_mem_cons.mpr ⟨?_, hothers⟩
    rcases hrows.1 with hnulls | ⟨row, hrow, hfound, htied⟩
    · obtain ⟨name, hname⟩ := hfirst
      rw [Env.cell_of_row? hnulls] at hname
      cases hname
    · rw [rowOf, hfound, Option.getD_some]
      exact ⟨hrow, rfl, htied⟩

/-- A place of its own below a collection is named like none that is reached by to-one steps. -/
theorem sameName_reached (hwired : relations.Wired p.schema p.table) {v start : Tree.Visit Relation}
    (hv : v ∈ relations.visits) (hown : v.label.isEmbedded = false)
    (hmany : Relations.reachedToOne v = false) (hstart : start ∈ relations.visits)
    (hreached : Relations.reachedToOne start = true) :
    sameName v.label.aliasName start.label.aliasName = false := by
  rw [Bool.eq_false_iff]
  intro hname
  obtain ⟨owner, howner, hownerOwn, halias, _, hownerReached⟩ := hwired.owner hstart
  rw [← halias] at hname
  have hsame : v = owner := hwired.eq_of_sameName hv howner hown hownerOwn hname
  rw [hsame, hownerReached hreached] at hmany
  cases hmany

/-- A tuple with a row of the collection that meets the condition has the rows that the `EXISTS` for it
asks for. -/
theorem existsAlong_holds (hwired : relations.Wired p.schema p.table)
    {v : Tree.Visit Relation} (hv : v ∈ relations.visits)
    (hown : ∀ u ∈ relations.manySteps v, u.label.isEmbedded = false)
    (hmany : Relations.reachedToOne v = false) {t t' : Tuple}
    (hrows : ∀ u ∈ joinedVisits relations fun _ => true, t.row? u.label.aliasName = some [] ∨
      ∃ row ∈ p.tableRows w u.label, t.row? u.label.aliasName = some row ∧ p.ties w [t] u = true)
    (hsame : ∀ u ∈ relations.visits, Relations.reachedToOne u = true →
      SameCells [u.label.aliasName] [t'] [t])
    (hpresent : Present t v.label.aliasName) {condition : Expr}
    (hdepends : DependsOn f w v.label.aliasName condition)
    (hholds : (condition.filled f).holds w [t] = true) :
    ((p.existsAlong relations v.label.id condition).filled f).holds w [t'] = true := by
  obtain ⟨start, hstart, hreached, hchain, hlast⟩ := hwired.manySteps_chain hv
  have hjoined : ∀ u ∈ relations.manySteps v, u ∈ joinedVisits relations fun _ => true := by
    intro u hu
    obtain ⟨_, _, hbelow⟩ := (hchain.ordered (List.mem_singleton.mpr rfl)).below hu
    exact mem_joinedVisits (hchain.mem_visits u hu) hbelow (hown u hu) rfl
  have hreal := chain_rows hchain hown (fun u hu => hrows u (hjoined u hu)) hlast hpresent
  have hapart : ∀ u ∈ relations.manySteps v,
      sameName u.label.aliasName start.label.aliasName = false := fun u hu =>
    sameName_reached hwired (hchain.mem_visits u hu) (hown u hu)
      (Relations.not_reached_of_mem_manySteps hu) hstart hreached
  rw [existsAlong_eq hwired hv]
  cases hsteps : relations.manySteps v with
  | nil =>
    rw [hsteps] at hlast
    have hnot : start = v := hlast
    rw [← hnot, hreached] at hmany
    cases hmany
  | cons first rest =>
    rw [hsteps] at hchain hreal hlast hapart
    have hfound : ∀ u ∈ first :: rest, t.row? u.label.aliasName = some (rowOf t u) :=
      fun u hu => (hreal u hu).2.1
    refine existsBelow_holds (t := t) hchain (fun u hu => (hreal u hu).1) ?_ ?_
    · intro u hu
      rw [ties_alongTuple hchain hfound hapart (hsame start hstart hreached) u hu]
      exact (hreal u hu).2.2
    · rw [← hholds]
      apply hdepends
      intro aliasName hname
      rw [List.mem_singleton.mp hname]
      exact sameCells_alongTuple hfound _
        (List.mem_map_of_mem (Relations.Chain.last_mem hlast))

end Exists

section Roots

variable {filters : List Filter} {row : Row} {t : Tuple}

/-- The tuples of a root in the full output. -/
def outputTuples (p : Planner) (w : World) (relations : Relations) (row : Row) : List Tuple :=
  p.extensions w [] .left (joinedVisits relations fun _ => true) [(relations.root.aliasName, row)]

/-- The tuple of a root inside of a window. -/
def windowTuple (p : Planner) (w : World) (relations : Relations) (row : Row) : Tuple :=
  (p.extensions w [] .left (joinedVisits relations Relations.reachedToOne)
    [(relations.root.aliasName, row)]).headD []

/-- What passes all filters. -/
def passing (f : HoleFiller) (w : World) (filters : List Filter) (t : Tuple) : Bool :=
  filters.all fun filter => (filter.expr.filled f).holds w [t]

theorem passing_congr {g : HoleFiller} {w' : World} {filters : List Filter} {t t' : Tuple}
    (h : ∀ filter ∈ filters, (filter.expr.filled f).holds w [t] =
      (filter.expr.filled g).holds w' [t']) : passing f w filters t = passing g w' filters t' := by
  rw [Bool.eq_iff_iff, passing, passing, List.all_eq_true, List.all_eq_true]
  refine forall₂_congr fun filter hfilter => ?_
  rw [h filter hfilter]

/-- The roots that pass in a window. -/
def passingWindow (p : Planner) (relations : Relations) (f : HoleFiller) (w : World)
    (filters : List Filter) (row : Row) : Bool :=
  filters.all fun filter =>
    ((p.windowCondition relations filter).filled f).holds w [p.windowTuple w relations row]

theorem rooted_reached (hwired : relations.Wired p.schema p.table) :
    Rooted [relations.root.aliasName] (joinedVisits relations Relations.reachedToOne) :=
  rooted_joinedVisits hwired fun _ _ => Relations.reachedToOne_of_below

theorem single_joinedVisits (hs : p.schema.Sound) (hwired : relations.Wired p.schema p.table)
    (hkeyed : w.database.Keyed w.dialect p.schema) :
    ∀ v ∈ joinedVisits relations fun _ => true, Relations.reachedToOne v = true → p.Single w v := by
  intro v hv hreached
  obtain ⟨hmem, hjoined⟩ := List.mem_filter.mp hv
  rw [Bool.and_true] at hjoined
  exact single_of_reached hs hwired hkeyed hmem hjoined hreached

/-- Inside of a window each root has one tuple. -/
theorem extensions_reached (hs : p.schema.Sound) (hwired : relations.Wired p.schema p.table)
    (hkeyed : w.database.Keyed w.dialect p.schema) (row : Row) :
    p.extensions w [] .left (joinedVisits relations Relations.reachedToOne)
      [(relations.root.aliasName, row)] = [p.windowTuple w relations row] := by
  have hsingle : ∀ v ∈ joinedVisits relations Relations.reachedToOne, p.Single w v := by
    intro v hv
    rw [joinedVisits_filter] at hv
    obtain ⟨hmem, hreached⟩ := List.mem_filter.mp hv
    exact single_joinedVisits hs hwired hkeyed v hmem hreached
  obtain ⟨u, hu⟩ := extensions_single [] [(relations.root.aliasName, row)] hsingle
    (rooted_reached hwired) (apart_joinedVisits hwired _)
  rw [windowTuple, hu]
  rfl

/-- A place that is reached by to-one steps reads the root or a place that the window joins. -/
theorem aliasName_mem_reached (hwired : relations.Wired p.schema p.table)
    {v : Tree.Visit Relation} (hv : v ∈ relations.visits)
    (hreached : Relations.reachedToOne v = true) : v.label.aliasName ∈
      [relations.root.aliasName] ++ aliasesOf (joinedVisits relations Relations.reachedToOne) := by
  obtain ⟨owner, howner, hown, halias, _, hup⟩ := hwired.owner hv
  rw [← halias]
  rcases hwired.visit_cases howner with rfl | ⟨above, _, hbelow⟩
  · exact List.mem_append_left _ (List.mem_singleton.mpr rfl)
  · apply List.mem_append_right
    apply List.mem_map_of_mem
    exact mem_joinedVisits howner hbelow hown (hup hreached)

/-- Inside of the window and in the output, what is reached by to-one steps has the same cells. -/
theorem sameCells_window (hs : p.schema.Sound) (hwired : relations.Wired p.schema p.table)
    (hkeyed : w.database.Keyed w.dialect p.schema) (ht : t ∈ p.outputTuples w relations row)
    {v : Tree.Visit Relation} (hv : v ∈ relations.visits)
    (hreached : Relations.reachedToOne v = true) :
    SameCells [v.label.aliasName] [p.windowTuple w relations row] [t] := by
  have hwindow : p.windowTuple w relations row ∈ p.extensions w [] .left
      ((joinedVisits relations fun _ => true).filter Relations.reachedToOne)
        [(relations.root.aliasName, row)] := by
    rw [← joinedVisits_filter, extensions_reached hs hwired hkeyed]
    exact List.mem_singleton.mpr rfl
  have hrooted := rooted_reached hwired
  have hapart : Apart (Tuple.names [(relations.root.aliasName, row)] ++
      aliasesOf (joinedVisits relations Relations.reachedToOne)) := apart_joinedVisits hwired _
  have hall : Apart (Tuple.names [(relations.root.aliasName, row)] ++
      aliasesOf (joinedVisits relations fun _ => true)) := apart_joinedVisits hwired _
  have hmem := aliasName_mem_reached hwired hv hreached
  rw [joinedVisits_filter] at hrooted hapart hmem
  have hstart : SameCells [relations.root.aliasName] [[(relations.root.aliasName, row)]]
      [[(relations.root.aliasName, row)]] := fun _ _ _ => rfl
  have hsame := sameCells_extensions Relations.reachedToOne (single_joinedVisits hs hwired hkeyed)
    hrooted hall hapart (List.Subset.refl _) (List.Subset.refl _) hstart ht hwindow
  refine hsame.symm.mono ?_
  intro name hname
  rw [List.mem_singleton.mp hname]
  exact hmem

/-- A tuple of the output has a row of each place, or no cells for it. -/
theorem row_of_mem_outputTuples (hwired : relations.Wired p.schema p.table)
    (ht : t ∈ p.outputTuples w relations row) : ∀ v ∈ joinedVisits relations fun _ => true,
      t.row? v.label.aliasName = some [] ∨ ∃ row ∈ p.tableRows w v.label,
        t.row? v.label.aliasName = some row ∧ p.ties w [t] v = true :=
  row_of_mem_extensions ht (rooted_joinedVisits hwired fun _ _ _ _ => rfl)
    (apart_joinedVisits hwired _)

/-- A filter that is not repeated outside of the window is as true inside of it. -/
theorem holds_window (hs : p.schema.Sound) (hwired : relations.Wired p.schema p.table)
    (hkeyed : w.database.Keyed w.dialect p.schema) (ht : t ∈ p.outputTuples w relations row)
    {filter : Filter} (hcompares : Compares relations f w filter)
    (hone : OnCollection relations filter = false) :
    ((p.windowCondition relations filter).filled f).holds w [p.windowTuple w relations row] =
      (filter.expr.filled f).holds w [t] := by
  obtain ⟨v, hv, hdepends, htarget⟩ := hcompares
  rcases htarget with hid | ⟨hnone, hreached⟩
  · rw [OnCollection, hid, Option.any_some] at hone
    have htoOne : relations.isToOne v.label.id = true := by simpa using hone
    have hreached : Relations.reachedToOne v = true := by
      rw [Relations.isToOne, hwired.visit?_id hv] at htoOne
      exact htoOne
    rw [windowCondition, hid]
    simp only [htoOne, if_true]
    exact hdepends _ _ (sameCells_window hs hwired hkeyed ht hv hreached)
  · rw [windowCondition, hnone]
    exact hdepends _ _ (sameCells_window hs hwired hkeyed ht hv hreached)

/-- A root passes in the window if one of its tuples passes all filters, each collection that is
compared having a row there. -/
theorem passingWindow_of_passing (hs : p.schema.Sound) (hwired : relations.Wired p.schema p.table)
    (hkeyed : w.database.Keyed w.dialect p.schema)
    (hflat : FlatTo relations filters)
    (hcompares : ∀ filter ∈ filters, Compares relations f w filter)
    (ht : t ∈ p.outputTuples w relations row) (hpasses : passing f w filters t = true)
    (hfound : Found relations filters t) :
    p.passingWindow relations f w filters row = true := by
  refine List.all_eq_true.mpr fun filter hfilter => ?_
  have hholds : (filter.expr.filled f).holds w [t] = true := List.all_eq_true.mp hpasses filter hfilter
  cases hone : OnCollection relations filter with
  -- To-one places have the same cells inside; a collection is looked up by an `EXISTS` there.
  | false => rw [holds_window hs hwired hkeyed ht (hcompares filter hfilter) hone, hholds]
  | true =>
    obtain ⟨v, hv, hdepends, htarget⟩ := hcompares filter hfilter
    have hid : filter.target = some v.label.id := by
      rcases htarget with hid | ⟨hnone, _⟩
      · exact hid
      · rw [OnCollection, hnone] at hone
        cases hone
    rw [OnCollection, hid, Option.any_some, Bool.not_eq_true'] at hone
    have hmany : Relations.reachedToOne v = false := by
      rw [Relations.isToOne, hwired.visit?_id hv] at hone
      exact hone
    rw [windowCondition, hid]
    simp only [hone, Bool.false_eq_true, if_false]
    exact existsAlong_holds hwired hv (hflat filter hfilter v hv hid) hmany
      (row_of_mem_outputTuples hwired ht)
      (fun u hu hreached => sameCells_window hs hwired hkeyed ht hu hreached)
      (hfound filter hfilter v hv hid hmany) hdepends hholds

/-- The tuples of a root that pass are those that pass what is repeated outside of the window, if the
root passes inside of it. -/
theorem filter_outputTuples (hs : p.schema.Sound) (hwired : relations.Wired p.schema p.table)
    (hkeyed : w.database.Keyed w.dialect p.schema)
    (hflat : FlatTo relations filters)
    (hcompares : ∀ filter ∈ filters, Compares relations f w filter)
    (hfound : ∀ t ∈ p.outputTuples w relations row, passing f w filters t = true →
      Found relations filters t) :
    (p.outputTuples w relations row).filter (passing f w filters) =
      if p.passingWindow relations f w filters row then
        (p.outputTuples w relations row).filter (passing f w (outerFilters relations filters))
      else [] := by
  cases hwindow : p.passingWindow relations f w filters row with
  | false =>
    rw [if_neg Bool.false_ne_true]
    refine List.filter_eq_nil_iff.mpr fun t ht hpasses => ?_
    rw [passingWindow_of_passing hs hwired hkeyed hflat hcompares ht hpasses
      (hfound t ht hpasses)] at hwindow
    cases hwindow
  | true =>
    rw [if_pos rfl]
    apply List.filter_congr
    intro t ht
    rw [Bool.eq_iff_iff, passing, passing, List.all_eq_true, List.all_eq_true, outerFilters]
    refine ⟨fun h filter hfilter => h filter (List.mem_of_mem_filter hfilter), ?_⟩
    intro h filter hfilter
    cases hone : OnCollection relations filter with
    | true => exact h filter (List.mem_filter.mpr ⟨hfilter, hone⟩)
    | false =>
      rw [← holds_window hs hwired hkeyed ht (hcompares filter hfilter) hone]
      exact List.all_eq_true.mp hwindow filter hfilter

end Roots

section Windows

variable {filters : List Filter} {order : List OrderItem}

/-- The keys of the roots that pass. -/
def keyQuery (p : Planner) (relations : Relations) (filters : List Filter) : Query :=
  filters.foldl (p.windowFilter relations) (p.projectKey
    (Query.reading (p.fromClause relations Relations.reachedToOne)) relations.root.aliasName)

/-- The full output over a FROM clause. -/
def outputQuery (p : Planner) (relations : Relations) (filters : List Filter) (source : Source) :
    Query :=
  filters.foldl (fun query filter => query.restrict filter.expr)
    (p.projectAll (Query.reading source) relations)

/-- The columns of the output. -/
def outputColumns (p : Planner) (relations : Relations) : List Projected :=
  relations.all.flatMap fun r => r.columns.map fun c =>
    ⟨.columnOf r.aliasName (p.schema.columnName c.column), some (r.columnAlias c)⟩

theorem projectAll_eq (p : Planner) (relations : Relations) (q : Query) :
    p.projectAll q relations =
      { q with projection := q.projection ++ p.outputColumns relations } := by
  unfold projectAll outputColumns
  induction relations.all generalizing q with
  | nil =>
    obtain ⟨distinct, projection, source, filter, groupBy, orderBy, offset, fetch⟩ := q
    simp
  | cons r rs ih =>
    rw [List.foldl_cons, ih, List.flatMap_cons, Query.foldl_project_eq]
    simp only [List.append_assoc]

/-- Roots and their tuples: the rows of the full output are made of them. -/
def outputRow (p : Planner) (w : World) (relations : Relations) (t : Tuple) : Row :=
  (p.outputColumns relations).map (Projected.cell w [t])

/-- The key of a root under the names of its columns. -/
def keyRow (p : Planner) (row : Row) : Row :=
  p.table.keyColumns.map fun column => (column.name, row.cell column.name)

/-- Nothing is skipped, and as many rows are fetched as there are at most. -/
def WholePage (w : World) (count : Nat) (offset fetch : Option Expr) : Prop :=
  (pageCount? w offset).getD 0 = 0 ∧ ∀ n, pageCount? w fetch = some n → count ≤ n

/-- Without bounds nothing is left out. -/
theorem wholePage_none (f : HoleFiller) (w : World) (count : Nat) :
    WholePage w count (optionalFilled f none) (optionalFilled f none) := by
  rw [optionalFilled]
  refine ⟨rfl, ?_⟩
  intro n hn
  cases hn

theorem cell_keyRow (p : Planner) (row : Row) {column : Column} (h : column ∈ p.table.keyColumns) :
    (p.keyRow row).cell column.name = row.cell column.name := by
  have hfind : ∀ key : List Column, column ∈ key → Record.getExact?
      (key.map fun column => (column.name, row.cell column.name)) column.name =
        some (row.cell column.name) := by
    intro key hmem
    induction key with
    | nil => cases hmem
    | cons first key ih =>
      rw [List.map_cons, Record.getExact?, List.find?_cons]
      cases hname : first.name == column.name with
      | true =>
        have hsame : first.name = column.name := by simpa using hname
        simp [hsame]
      | false =>
        rcases List.mem_cons.mp hmem with rfl | hrest
        · simp at hname
        · simpa [Record.getExact?, hname] using ih hrest
  rw [keyRow, Row.cell, hfind _ h, Option.getD_some]

theorem filled_projection (f : HoleFiller) (q : Query)
    (h : ∀ p ∈ q.projection, p.expr.filled f = p.expr) : (q.filled f).projection = q.projection := by
  obtain ⟨distinct, projection, source, filter, groupBy, orderBy, offset, fetch⟩ := q
  show projectedFilled f projection = projection
  induction projection with
  | nil => rw [projectedFilled]
  | cons p ps ih =>
    rw [List.forall_mem_cons] at h
    obtain ⟨expr, aliasName⟩ := p
    have hexpr : expr.filled f = expr := h.1
    rw [projectedFilled, hexpr, ih h.2]

theorem kept_filled (f : HoleFiller) (q : Query) : (q.filled f).kept w outer =
    (sourceTuples w outer (sourceFilled f q.source)).filter ((q.filled f).passes w outer) := by
  obtain ⟨distinct, projection, source, filter, groupBy, orderBy, offset, fetch⟩ := q
  rw [Query.kept, Query.filled]

/-- A query of columns, paged or not, has a row of each tuple that it keeps, if the page leaves none
out. -/
theorem rows_columns (f : HoleFiller) (w : World) (outer : Env) {q : Query} (hdistinct : q.distinct = false)
    (hcolumns : ∀ projected ∈ q.projection, ∃ aliasName name,
      projected.expr = .columnOf aliasName name)
    (hwhole : WholePage w ((q.filled f).kept w outer).length (optionalFilled f q.offset)
      (optionalFilled f q.fetch)) :
    ((q.filled f).rows w outer).Perm
      (((q.filled f).kept w outer).map fun t => q.projection.map (Projected.cell w (t :: outer))) := by
  have hprojection : (q.filled f).projection = q.projection := by
    apply filled_projection
    intro projected hmem
    obtain ⟨aliasName, name, hexpr⟩ := hcolumns projected hmem
    rw [hexpr, Expr.columnOf, Expr.filled]
  have hcount : (q.projection.any fun projected => projected.expr.isCount) = false := by
    refine List.any_eq_false.mpr fun projected hmem => ?_
    obtain ⟨aliasName, name, hexpr⟩ := hcolumns projected hmem
    rw [hexpr]
    exact Bool.false_ne_true
  rw [← hprojection] at hcount ⊢
  obtain ⟨distinct, projection, source, filter, groupBy, orderBy, offset, fetch⟩ := q
  exact Query.rows_perm w outer _ hdistinct hcount hwhole.1 hwhole.2

/-- What is kept depends on the FROM clause and the condition alone. -/
theorem kept_paged (f : HoleFiller) (q : Query) (order : List OrderItem)
    (offset fetch : Option Expr) : (Query.filled f { q with orderBy := order, offset, fetch }).kept w
      outer = (q.filled f).kept w outer := by
  obtain ⟨distinct, projection, source, filter, groupBy, orderBy, offset', fetch'⟩ := q
  rfl

section Keys

/-- What the keys are projected from. -/
theorem keyQuery_eq (p : Planner) (relations : Relations) (filters : List Filter) :
    ∃ filter, p.keyQuery relations filters =
      { Query.reading (p.fromClause relations Relations.reachedToOne) with
        projection := p.table.keyColumns.map fun column =>
          ⟨.columnOf relations.root.aliasName column.name, some column.name⟩
        filter } := by
  obtain ⟨filter, hfilter⟩ := Query.foldl_restrict_eq (p.windowCondition relations) filters
    (p.projectKey (Query.reading (p.fromClause relations Relations.reachedToOne))
      relations.root.aliasName)
  refine ⟨filter, ?_⟩
  rw [keyQuery, foldl_windowFilter, hfilter, projectKey, Query.foldl_project_eq]
  rfl

theorem passes_keyQuery (f : HoleFiller) (p : Planner) (relations : Relations)
    (filters : List Filter) (t : Tuple) :
    ((p.keyQuery relations filters).filled f).passes w outer t = filters.all fun filter =>
      ((p.windowCondition relations filter).filled f).holds w (t :: outer) := by
  rw [keyQuery, foldl_windowFilter, Query.passes_foldl, projectKey, Query.foldl_project_eq]
  exact Bool.true_and _

/-- Inside of a window one tuple is kept of each root that passes. -/
theorem kept_keyQuery (hs : p.schema.Sound) (hwired : relations.Wired p.schema p.table)
    (hkeyed : w.database.Keyed w.dialect p.schema) :
    ((p.keyQuery relations filters).filled f).kept w [] =
      ((p.tableRows w relations.root).filter (p.passingWindow relations f w filters)).map
        (p.windowTuple w relations) := by
  obtain ⟨filter, hquery⟩ := p.keyQuery_eq relations filters
  have hsource : (p.keyQuery relations filters).source =
      some (p.fromClause relations Relations.reachedToOne) := by rw [hquery]; rfl
  rw [kept_filled, hsource, sourceTuples_fromClause]
  simp only [extensions_reached hs hwired hkeyed]
  rw [← List.map_eq_flatMap, List.filter_map]
  congr 1
  apply List.filter_congr
  intro row _
  exact p.passes_keyQuery f relations filters _

/-- The cells of a root are read under its name. -/
theorem cell_root (hs : p.schema.Sound) (hwired : relations.Wired p.schema p.table)
    (hkeyed : w.database.Keyed w.dialect p.schema) (row : Row) (name : String) :
    Env.cell [p.windowTuple w relations row] relations.root.aliasName name = row.cell name := by
  have hmem : p.windowTuple w relations row ∈ p.extensions w [] .left
      (joinedVisits relations Relations.reachedToOne) [(relations.root.aliasName, row)] := by
    rw [extensions_reached hs hwired hkeyed]
    exact List.mem_singleton.mpr rfl
  rw [← sameCells_extension hmem _ (List.mem_singleton.mpr rfl),
    Env.cell_of_row? (Tuple.row?_cons_self _ _ _)]

/-- A whole page has the keys of all roots that pass. -/
theorem rows_keyQuery (hs : p.schema.Sound) (hwired : relations.Wired p.schema p.table)
    (hkeyed : w.database.Keyed w.dialect p.schema) (order : List OrderItem)
    {offset fetch : Option Expr} (hwhole : WholePage w (p.tableRows w relations.root).length
      (optionalFilled f offset) (optionalFilled f fetch)) :
    (Query.rows w [] (Query.filled f
      { p.keyQuery relations filters with orderBy := order, offset, fetch })).Perm
        (((p.tableRows w relations.root).filter (p.passingWindow relations f w filters)).map
          p.keyRow) := by
  let q : Query := { p.keyQuery relations filters with orderBy := order, offset, fetch }
  -- One tuple is kept of each root that passes, and no more rows are fetched than there are roots.
  have hkept : (q.filled f).kept w [] =
      ((p.tableRows w relations.root).filter (p.passingWindow relations f w filters)).map
        (p.windowTuple w relations) := by
    rw [kept_paged, kept_keyQuery hs hwired hkeyed]
  have hcount : ((q.filled f).kept w []).length ≤ (p.tableRows w relations.root).length := by
    rw [hkept, List.length_map]
    exact List.length_filter_le _ _
  obtain ⟨filter, hquery⟩ := p.keyQuery_eq relations filters
  have hprojection : q.projection = p.table.keyColumns.map fun column =>
      ⟨.columnOf relations.root.aliasName column.name, some column.name⟩ := by
    show (p.keyQuery relations filters).projection = _
    rw [hquery]
  have hdistinct : q.distinct = false := by
    show (p.keyQuery relations filters).distinct = false
    rw [hquery]
    rfl
  have hperm := rows_columns f w [] hdistinct
    (by
      rw [hprojection]
      intro projected hmem
      obtain ⟨column, _, rfl⟩ := List.mem_map.mp hmem
      exact ⟨_, _, rfl⟩)
    ⟨hwhole.1, fun n hn => hcount.trans (hwhole.2 n hn)⟩
  refine hperm.trans (List.Perm.of_eq ?_)
  rw [hkept, hprojection, List.map_map]
  apply List.map_congr_left
  intro row _
  rw [Function.comp_apply, List.map_map, keyRow]
  apply List.map_congr_left
  intro column _
  rw [Function.comp_apply, Projected.cell, Expr.columnOf, Expr.value, cell_root hs hwired hkeyed]
  rfl

end Keys

section Output

variable {source : Source}

theorem outputQuery_eq (p : Planner) (relations : Relations) (filters : List Filter)
    (source : Source) : ∃ filter, p.outputQuery relations filters source =
      { Query.reading source with projection := p.outputColumns relations, filter } := by
  obtain ⟨filter, hfilter⟩ := Query.foldl_restrict_eq Filter.expr filters
    (p.projectAll (Query.reading source) relations)
  refine ⟨filter, ?_⟩
  rw [outputQuery, hfilter, projectAll_eq]
  rfl

theorem passes_outputQuery (f : HoleFiller) (p : Planner) (relations : Relations)
    (filters : List Filter) (source : Source) (t : Tuple) :
    ((p.outputQuery relations filters source).filled f).passes w [] t =
      passing f w filters t := by
  rw [outputQuery, Query.passes_foldl, projectAll_eq]
  exact Bool.true_and _

/-- The output has a row of each tuple that passes, if the page leaves none out. -/
theorem rows_outputQuery (f : HoleFiller) (p : Planner) (relations : Relations)
    (filters : List Filter) (source : Source) (order : List OrderItem) {offset fetch : Option Expr}
    (hwhole : WholePage w ((sourceTuples w [] (sourceFilled f (some source))).filter
      (passing f w filters)).length (optionalFilled f offset) (optionalFilled f fetch)) :
    (Query.rows w [] (Query.filled f
      { p.outputQuery relations filters source with orderBy := order, offset, fetch })).Perm
        (((sourceTuples w [] (sourceFilled f (some source))).filter (passing f w filters)).map
          (p.outputRow w relations)) := by
  let q : Query := { p.outputQuery relations filters source with orderBy := order, offset, fetch }
  obtain ⟨filter, hquery⟩ := p.outputQuery_eq relations filters source
  have hprojection : q.projection = p.outputColumns relations := by
    show (p.outputQuery relations filters source).projection = _
    rw [hquery]
  have hsource : (p.outputQuery relations filters source).source = some source := by
    rw [hquery]
    rfl
  have hdistinct : q.distinct = false := by
    show (p.outputQuery relations filters source).distinct = false
    rw [hquery]
    rfl
  have hkept : (q.filled f).kept w [] =
      (sourceTuples w [] (sourceFilled f (some source))).filter (passing f w filters) := by
    rw [kept_paged, kept_filled, hsource]
    apply List.filter_congr
    intro t _
    exact p.passes_outputQuery f relations filters source t
  have hperm := rows_columns f w [] hdistinct
    (by
      rw [hprojection]
      intro projected hmem
      obtain ⟨r, _, hmem⟩ := List.mem_flatMap.mp hmem
      obtain ⟨column, _, rfl⟩ := List.mem_map.mp hmem
      exact ⟨_, _, rfl⟩)
    (by
      rw [hkept]
      exact hwhole)
  rw [hkept, hprojection] at hperm
  exact hperm

end Output

section Joined

theorem flatMap_filter {α β : Type} (items : List α) (test : α → Bool) (g : α → List β) :
    (items.filter test).flatMap g = items.flatMap fun a => if test a then g a else [] := by
  induction items with
  | nil => rfl
  | cons a items ih =>
    cases htest : test a with
    | true => rw [List.filter_cons_of_pos htest, List.flatMap_cons, List.flatMap_cons, ih, if_pos htest]
    | false =>
      rw [List.filter_cons_of_neg (by rw [htest]; exact Bool.false_ne_true), List.flatMap_cons, ih,
        if_neg (by rw [htest]; exact Bool.false_ne_true), List.nil_append]

/-- A row that is related to itself and to no other one is all that a filter for it leaves. -/
theorem filter_eq_singleton {α : Type} (related : α → α → Prop) {items : List α} {a : α}
    (hmem : a ∈ items) (hapart : items.Pairwise fun b c => ¬related b c) (hrefl : related a a)
    (hsymm : ∀ b, related a b → related b a) {test : α → Bool}
    (htest : ∀ b ∈ items, test b = true ↔ related a b) : items.filter test = [a] := by
  induction items with
  | nil => cases hmem
  | cons first rest ih =>
    rw [List.pairwise_cons] at hapart
    rw [List.forall_mem_cons] at htest
    rcases List.mem_cons.mp hmem with rfl | hrest
    · have hnone : rest.filter test = [] := List.filter_eq_nil_iff.mpr fun b hb hpass =>
        hapart.1 b hb ((htest.2 b hb).mp hpass)
      rw [List.filter_cons_of_pos (htest.1.mpr hrefl), hnone]
    · have hnot : ¬test first = true := fun hpass =>
        hapart.1 a hrest (hsymm first (htest.1.mp hpass))
      rw [List.filter_cons_of_neg hnot]
      exact ih hrest hapart.2 htest.2

/-- The roots that a key of the page is joined to. -/
def keyRoots (p : Planner) (f : HoleFiller) (w : World) (relations : Relations) (key : Row) : List Row :=
  (p.tableRows w relations.root).filter fun row =>
    ((keyEq p.windowAlias relations.root.aliasName p.table.keyColumns).filled f).holds w
      [[(p.windowAlias, key), (relations.root.aliasName, row)]]

/-- A key joins its own root and no other one. -/
theorem keyRoots_keyRow (f : HoleFiller) (hs : p.schema.Sound) (htable : p.table ∈ p.schema.tables)
    (hwired : relations.Wired p.schema p.table) (hkeyed : w.database.Keyed w.dialect p.schema)
    (hhasKey : p.table.hasKey = true)
    (hother : sameName p.windowAlias relations.root.aliasName = false) {row : Row}
    (hrow : row ∈ p.tableRows w relations.root) :
    p.keyRoots f w relations (p.keyRow row) = [row] := by
  let lead := p.windowAlias
  let root := relations.root.aliasName
  rw [tableRows_root hs htable hwired] at hrow
  rw [keyRoots, tableRows_root hs htable hwired]
  have hequal := w.dialect.equal
  refine filter_eq_singleton (w.dialect.sameKey p.table.keyColumns) hrow
    (hkeyed.unique p.table htable hhasKey) (fun _ _ => hequal.refl _)
    (fun _ h column hcolumn => hequal.symm (h column hcolumn)) ?_
  intro found hfound
  rw [holds_keyEq, List.all_eq_true]
  refine forall₂_congr fun column hcolumn => ?_
  have hleft : Env.cell [[(lead, p.keyRow row), (root, found)]] lead column.name =
      row.cell column.name := by
    rw [Env.cell_of_row? (Tuple.row?_cons_self _ _ _), p.cell_keyRow row hcolumn]
  have hright : Env.cell [[(lead, p.keyRow row), (root, found)]] root column.name =
      found.cell column.name := by
    apply Env.cell_of_row?
    rw [Tuple.row?_cons_of_ne hother, Tuple.row?_cons_self]
  rw [hleft, hright, World.compare_eq_holds]
  exact ⟨fun h => h.2.2, fun h => ⟨hkeyed.present _ htable _ hrow _ hcolumn,
    hkeyed.present _ htable _ hfound _ hcolumn, h⟩⟩

/-- The page, its roots, and everything that the output reads. -/
def frame (p : Planner) (relations : Relations) (window : Query) : Source :=
  p.joinAll .left (fun _ => true) ((Source.of (.derived window p.windowAlias)).join .inner
    (p.factor relations.root)
    (keyEq p.windowAlias relations.root.aliasName p.table.keyColumns)) relations.visits

/-- Each key of the page is joined to its root, and the root to what it is joined to without the page. -/
theorem sourceTuples_frame (f : HoleFiller) (hwired : relations.Wired p.schema p.table)
    (hother : ∀ r ∈ relations.all, sameName p.windowAlias r.aliasName = false) (window : Query) :
    sourceTuples w [] (sourceFilled f (some (p.frame relations window))) =
      ((window.filled f).rows w []).flatMap fun key =>
        (p.keyRoots f w relations key).flatMap fun row =>
          (p.outputTuples w relations row).map fun t => (p.windowAlias, key) :: t := by
  have hlead : ∀ v ∈ joinedVisits relations fun _ => true,
      sameName p.windowAlias (parentAlias v) = false ∧
        sameName p.windowAlias v.label.aliasName = false := by
    intro v hv
    have hmem := List.mem_of_mem_filter hv
    refine ⟨?_, hother _ (Relations.label_mem_all hmem)⟩
    rcases hwired.visit_cases hmem with rfl | ⟨above, habove, hbelow⟩
    · exact hother _ relations.root_mem_all
    · rw [parentAlias_of_below hbelow]
      exact hother _ (Relations.label_mem_all habove)
  rw [frame, Source.of, Source.join, joinAll_eq, sourceFilled, sourceTuples, List.nil_append,
    List.singleton_append, joinsFilled]
  apply List.flatMap_congr
  intro key _
  rw [joinsTuples, JoinKind.padded]
  · have hfound : ((((p.factor relations.root).filled f).rows w []).map fun row =>
        [(p.windowAlias, key)] ++ [(((p.factor relations.root).filled f).reference, row)]).filter
          (fun x => (((keyEq p.windowAlias relations.root.aliasName p.table.keyColumns).filled f).truth
            w [x]).holds) =
        (p.keyRoots f w relations key).map fun row =>
          [(p.windowAlias, key), (relations.root.aliasName, row)] := by
      rw [List.filter_map]
      rfl
    refine (congrArg (List.flatMap fun x => joinsTuples w []
      (joinsFilled f (p.joins .left (joinedVisits relations fun _ => true))) x) hfound).trans ?_
    rw [List.flatMap_map]
    apply List.flatMap_congr
    intro row _
    rw [joinsTuples_joins, extensions_cons hlead]
    rfl
  · intro hleft
    cases hleft

/-- Where the page is no relation, a row of it changes nothing for the relations. -/
theorem passing_frame (hcompares : ∀ filter ∈ filters, Compares relations f w filter)
    (hother : ∀ r ∈ relations.all, sameName p.windowAlias r.aliasName = false) (key : Row)
    (t : Tuple) : passing f w filters ((p.windowAlias, key) :: t) = passing f w filters t := by
  apply passing_congr
  intro filter hfilter
  obtain ⟨v, hv, hdepends, _⟩ := hcompares filter hfilter
  apply hdepends
  apply sameCells_cons
  intro name hname
  rw [List.mem_singleton.mp hname]
  exact hother _ (Relations.label_mem_all hv)

theorem outputRow_frame (hother : ∀ r ∈ relations.all, sameName p.windowAlias r.aliasName = false)
    (key : Row) (t : Tuple) :
    p.outputRow w relations ((p.windowAlias, key) :: t) = p.outputRow w relations t := by
  apply List.map_congr_left
  intro projected hmem
  obtain ⟨r, hr, hmem⟩ := List.mem_flatMap.mp hmem
  obtain ⟨column, _, rfl⟩ := List.mem_map.mp hmem
  have hlead : ∀ name ∈ [r.aliasName], sameName p.windowAlias name = false := by
    intro name hname
    rw [List.mem_singleton.mp hname]
    exact hother r hr
  have hcell := sameCells_cons hlead key t [] _ (List.mem_singleton.mpr rfl)
  rw [Projected.cell, Projected.cell, Expr.columnOf, Expr.value, Expr.value, hcell]

/-- The rows of the output that a root has. -/
def rootRows (p : Planner) (f : HoleFiller) (w : World) (relations : Relations)
    (filters : List Filter) (row : Row) : List Row :=
  ((p.outputTuples w relations row).filter (passing f w filters)).map (p.outputRow w relations)

/-- Joined to a page, the output has the rows of the roots of each key. -/
theorem rows_joined (f : HoleFiller) (hwired : relations.Wired p.schema p.table)
    (hother : ∀ r ∈ relations.all, sameName p.windowAlias r.aliasName = false)
    (hcompares : ∀ filter ∈ filters, Compares relations f w filter) (window : Query) :
    ((sourceTuples w [] (sourceFilled f (some (p.frame relations window)))).filter
      (passing f w filters)).map (p.outputRow w relations) =
        ((window.filled f).rows w []).flatMap fun key =>
          (p.keyRoots f w relations key).flatMap (p.rootRows f w relations filters) := by
  rw [sourceTuples_frame f hwired hother, List.filter_flatMap, List.map_flatMap]
  apply List.flatMap_congr
  intro key _
  rw [List.filter_flatMap, List.map_flatMap]
  apply List.flatMap_congr
  intro row _
  rw [rootRows, List.filter_map, List.map_map]
  have hsame : (passing f w filters ∘ fun t => (p.windowAlias, key) :: t) = passing f w filters := by
    funext t
    exact passing_frame hcompares hother key t
  rw [hsame]
  apply List.map_congr_left
  intro t _
  exact outputRow_frame hother key t

/-- The rows of the full output, without a page. -/
def allRows (p : Planner) (f : HoleFiller) (w : World) (relations : Relations)
    (filters : List Filter) : List Row :=
  (((p.tableRows w relations.root).flatMap (p.outputTuples w relations)).filter
    (passing f w filters)).map (p.outputRow w relations)

/-- The rows of the full output are those of the roots that pass in the window, of which the filters on
collections leave what they leave there. -/
theorem allRows_eq (hs : p.schema.Sound) (hwired : relations.Wired p.schema p.table)
    (hkeyed : w.database.Keyed w.dialect p.schema) (hflat : FlatTo relations filters)
    (hcompares : ∀ filter ∈ filters, Compares relations f w filter)
    (hfound : ∀ row ∈ p.tableRows w relations.root, ∀ t ∈ p.outputTuples w relations row,
      passing f w filters t = true → Found relations filters t) :
    p.allRows f w relations filters =
      ((p.tableRows w relations.root).filter (p.passingWindow relations f w filters)).flatMap
        (p.rootRows f w relations (outerFilters relations filters)) := by
  rw [allRows, List.filter_flatMap, List.map_flatMap, flatMap_filter]
  apply List.flatMap_congr
  intro row hrow
  rw [filter_outputTuples hs hwired hkeyed hflat hcompares (hfound row hrow)]
  cases p.passingWindow relations f w filters row with
  | true => rfl
  | false => rfl

/-- A window that leaves out no root leaves out no row of the output, and adds none. -/
theorem rows_frame (hs : p.schema.Sound) (htable : p.table ∈ p.schema.tables)
    (hwired : relations.Wired p.schema p.table) (hkeyed : w.database.Keyed w.dialect p.schema)
    (hhasKey : p.table.hasKey = true)
    (hother : ∀ r ∈ relations.all, sameName p.windowAlias r.aliasName = false)
    (hflat : FlatTo relations filters)
    (hcompares : ∀ filter ∈ filters, Compares relations f w filter)
    (hfound : ∀ row ∈ p.tableRows w relations.root, ∀ t ∈ p.outputTuples w relations row,
      passing f w filters t = true → Found relations filters t)
    (inner outer : List OrderItem) {offset fetch : Option Expr}
    (hwhole : WholePage w (p.tableRows w relations.root).length (optionalFilled f offset)
      (optionalFilled f fetch)) :
    (Query.rows w [] (Query.filled f { p.outputQuery relations (outerFilters relations filters)
      (p.frame relations { p.keyQuery relations filters with orderBy := inner, offset, fetch }) with
        orderBy := outer })).Perm (p.allRows f w relations filters) := by
  let window : Query := { p.keyQuery relations filters with orderBy := inner, offset, fetch }
  let rest := outerFilters relations filters
  let roots := (p.tableRows w relations.root).filter (p.passingWindow relations f w filters)
  have hrest : ∀ filter ∈ rest, Compares relations f w filter :=
    fun filter hfilter => hcompares filter (List.mem_of_mem_filter hfilter)
  obtain ⟨filter, hquery⟩ := p.outputQuery_eq relations rest (p.frame relations window)
  have hrows := p.rows_outputQuery f relations rest (p.frame relations window) outer
    (wholePage_none f w _)
  have hkeys : ((roots.map p.keyRow).flatMap fun key =>
      (p.keyRoots f w relations key).flatMap (p.rootRows f w relations rest)) =
        roots.flatMap (p.rootRows f w relations rest) := by
    rw [List.flatMap_map]
    apply List.flatMap_congr
    intro row hrow
    rw [keyRoots_keyRow f hs htable hwired hkeyed hhasKey (hother _ relations.root_mem_all)
      (List.mem_of_mem_filter hrow), List.flatMap_singleton]
  have hunbounded : { p.outputQuery relations rest (p.frame relations window) with orderBy := outer } =
      { p.outputQuery relations rest (p.frame relations window) with
        orderBy := outer, offset := none, fetch := none } := by
    rw [hquery]
    rfl
  rw [hunbounded]
  calc
    List.Perm _ (((sourceTuples w [] (sourceFilled f (some (p.frame relations window)))).filter
        (passing f w rest)).map (p.outputRow w relations)) := hrows
    _ = ((window.filled f).rows w []).flatMap fun key =>
        (p.keyRoots f w relations key).flatMap (p.rootRows f w relations rest) :=
      rows_joined f hwired hother hrest window
    List.Perm _ ((roots.map p.keyRow).flatMap fun key =>
        (p.keyRoots f w relations key).flatMap (p.rootRows f w relations rest)) :=
      (rows_keyQuery hs hwired hkeyed inner hwhole).flatMap_right _
    _ = roots.flatMap (p.rootRows f w relations rest) := hkeys
    _ = p.allRows f w relations filters :=
      (allRows_eq hs hwired hkeyed hflat hcompares hfound).symm

end Joined

end Windows

end Planner

end ShapeSql
