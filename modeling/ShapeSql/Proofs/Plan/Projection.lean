import ShapeSql.Proofs.Graph.Levels
import ShapeSql.Proofs.Plan.Select

namespace ShapeSql

open Sql

/-- The names of the result columns of a query. -/
def Sql.Query.resultNames (q : Query) : List String := q.projection.filterMap Projected.aliasName

namespace Relation

/-- What a place adds to the selected columns. -/
def selected (s : Schema) (r : Relation) : List Projected :=
  r.columns.map fun c => ⟨.columnOf r.aliasName (s.columnName c.column), some (r.columnAlias c)⟩

theorem filterMap_selected (s : Schema) (r : Relation) :
    (r.selected s).filterMap Projected.aliasName = r.aliases := by
  rw [selected, List.filterMap_map, aliases, ← List.filterMap_eq_map]
  rfl

end Relation

namespace Relations

/-- Selecting the columns of places names the result columns as the places do. -/
theorem resultNames_of_selected {s : Schema} {relations : Relations} {query : Query}
    (h : query.projection = relations.all.flatMap (Relation.selected s)) :
    query.resultNames = relations.all.flatMap Relation.aliases := by
  rw [Query.resultNames, h, List.filterMap_flatMap]
  exact List.flatMap_congr fun r _ => r.filterMap_selected s

/-- The root is a table, and the places that share a level lie below the one that owns it. -/
structure Nested (relations : Relations) : Prop where
  root : relations.root.isBound = true
  tree : Nests .root relations.tree

theorem Nested.anchorKeys {relations : Relations} (h : relations.Nested) (s : Schema) :
    (relations.anchorKeys s).Nested where
  root := by
    have hroot : (relations.anchorKeys s).root = relations.root.anchorKey s := by
      obtain ⟨⟨root, kids⟩, supply⟩ := relations
      rfl
    rw [hroot, Relation.isBound_of_kind (same_anchorKey s relations.root).2.2.1]
    exact h.root
  tree := nests_anchorKeys s relations.tree h.tree

theorem Nested.merged {own other relations : Relations} (hown : own.Nested)
    (hbare : Bare [other.tree]) (hroot : other.root.isBound = true)
    (h : own.merged other = .ok relations) : relations.Nested where
  root := by
    have hkept := hown.root
    obtain ⟨_, _, rfl⟩ := merged_inv h
    obtain ⟨⟨root, kids⟩, supply⟩ := own
    obtain ⟨⟨otherRoot, otherKids⟩, otherSupply⟩ := other
    exact hkept
  tree := merged_nests hown.tree hbare (hown.root.trans hroot.symm) h

end Relations

namespace Resolver

variable {r : Resolver} {table : Table}

theorem resolve_nested {output : FieldTree} (houtput : output.Rooted .root) {relations : Relations}
    (h : r.resolve table output = .ok relations) : relations.Nested where
  root := by
    obtain ⟨columns, kids, supply, _, rfl⟩ := resolve_inv h
    rfl
  tree := resolve_nests houtput h

theorem resolvePath_root {path : Path} {relations : Relations}
    (h : r.resolvePath table path = .ok relations) : relations.root.isBound = true := by
  obtain ⟨kids, supply, _, rfl⟩ := resolvePath_inv h
  rfl

end Resolver

namespace Planner

variable {p : Planner} {d d' : Draft}

/-- What merges keep is true of the relations that filters join, if it is true of those before. They are
merged along the path of a filter that did not lead to a relation, and leads to one afterwards. -/
theorem selectFilters_joined {P : Relations → Prop} {arguments : List FieldTree}
    (hmerged : ∀ {own extra after : Relations} {path : Path}, P own →
      (∃ argument ∈ arguments, argument.label.directives.join = some path) →
      p.resolver.resolvePath p.table path = .ok extra → own.merged extra = .ok after →
      own.find? path = none → (after.find? path).isSome = true → P after)
    {relations after : Relations} {filters : List Filter} (hbefore : P relations)
    (hrun : (p.selectFilters relations arguments).run d = .ok ((filters, after), d')) :
    P after := by
  induction arguments generalizing d relations filters with
  | nil =>
    simp only [selectFilters, run_pure_ok, Prod.mk.injEq] at hrun
    obtain ⟨⟨_, rfl⟩, _⟩ := hrun
    exact hbefore
  | cons argument rest ih =>
    obtain ⟨first, middle, between, others, hfirst, hrest, _⟩ := selectFilters_cons hrun
    have hothers : ∀ {path : Path},
        (∃ other ∈ rest, other.label.directives.join = some path) →
          ∃ other ∈ argument :: rest, other.label.directives.join = some path := by
      rintro path ⟨other, hother, hjoin⟩
      exact ⟨other, List.mem_cons_of_mem _ hother, hjoin⟩
    refine ih (fun hown hjoin => hmerged hown (hothers hjoin)) ?_ hrest
    rcases selectFilter_cases hfirst with ⟨_, rfl, _⟩ | ⟨join, target, hjoin, hjoined, _⟩
    · exact hbefore
    · rcases joinTarget_cases hjoined with ⟨_, rfl⟩ | ⟨hnone, extra, hextra, hafter, hfound⟩
      · exact hbefore
      · exact hmerged hbefore ⟨argument, List.mem_cons_self, hjoin⟩ hextra hafter hnone
          (hfound ▸ rfl)

theorem selectFilters_nested {relations after : Relations} {arguments : List FieldTree}
    {filters : List Filter} (hnested : relations.Nested)
    (hrun : (p.selectFilters relations arguments).run d = .ok ((filters, after), d')) :
    after.Nested := by
  refine selectFilters_joined ?_ hnested hrun
  intro own extra after path hown _ hextra hmerged _ _
  exact hown.merged (Resolver.resolvePath_bare hextra) (Resolver.resolvePath_root hextra) hmerged

section Selected

theorem projection_projectAll (p : Planner) (q : Query) (relations : Relations) :
    (p.projectAll q relations).projection =
      q.projection ++ relations.all.flatMap (Relation.selected p.schema) := by
  have hrelation : ∀ (r : Relation) (columns : List ProjectedColumn) (q : Query),
      (columns.foldl (fun query c =>
        query.project (.columnOf r.aliasName (p.schema.columnName c.column))
          (some (r.columnAlias c))) q).projection =
        q.projection ++ columns.map fun c =>
          ⟨.columnOf r.aliasName (p.schema.columnName c.column), some (r.columnAlias c)⟩ := by
    intro r columns
    induction columns with
    | nil => exact fun q => (List.append_nil _).symm
    | cons c columns ih =>
      intro q
      rw [List.foldl_cons, ih, Query.project, List.append_assoc]
      rfl
  have hall : ∀ (rs : List Relation) (q : Query),
      (rs.foldl (fun query r => r.columns.foldl (fun query c =>
        query.project (.columnOf r.aliasName (p.schema.columnName c.column))
          (some (r.columnAlias c))) query) q).projection =
        q.projection ++ rs.flatMap (Relation.selected p.schema) := by
    intro rs
    induction rs with
    | nil => exact fun q => (List.append_nil _).symm
    | cons r rs ih =>
      intro q
      rw [List.foldl_cons, ih, hrelation, List.flatMap_cons, List.append_assoc]
      rfl
  exact hall relations.all q

theorem projection_restrictAll (filters : List Filter) (q : Query) :
    (filters.foldl (fun query filter => query.restrict filter.expr) q).projection =
      q.projection := by
  induction filters generalizing q with
  | nil => rfl
  | cons filter filters ih =>
    rw [List.foldl_cons, ih]
    rfl

theorem page_projection {query paged : Query} {aliasName : String}
    (hrun : (p.page query aliasName).run d = .ok (paged, d')) :
    paged.projection = query.projection := by
  simp only [page, run_bind_ok, run_pure_ok] at hrun
  obtain ⟨_, _, _, _, _, _, rfl, _⟩ := hrun
  rfl

/-- A select that does not count selects what its relations project. -/
theorem select_projection {query : Query} {relations : Relations} (hcount : p.outputKind ≠ .count)
    (hrun : p.select.run d = .ok ((query, relations), d')) :
    query.projection = relations.all.flatMap (Relation.selected p.schema) := by
  obtain ⟨_, filters, _, order, _, _, _, _, _, _, hquery⟩ := p.select_inv hrun
  rcases hquery with ⟨hcounts, _⟩ | ⟨_, _, _, hwindow⟩ | ⟨_, _, hplain⟩
  · exact absurd hcounts hcount
  · unfold keyWindow at hwindow
    split at hwindow
    · simp only [run_bind_ok, run_throw_ok, false_and, exists_false] at hwindow
    · simp only [run_bind_ok, run_pure_ok] at hwindow
      obtain ⟨window, _, _, rfl, _⟩ := hwindow
      have hrestricted := projection_restrictAll (outerFilters relations filters)
        (p.projectAll (Query.reading (p.joinAll .left (fun _ => true)
          ((Source.of (.derived window p.windowAlias)).join .inner (p.factor relations.root)
            (keyEq p.windowAlias relations.root.aliasName p.table.keyColumns))
          relations.visits)) relations)
      exact hrestricted.trans (projection_projectAll p _ relations)
  · have hrestricted := projection_restrictAll filters
      (p.projectAll (Query.reading (p.fromClause relations fun _ => true)) relations)
    have hall := hrestricted.trans (projection_projectAll p _ relations)
    rcases plainQuery_cases hplain with ⟨_, hpage⟩ | ⟨_, rfl, _⟩
    · exact (page_projection hpage).trans hall
    · exact hall

end Selected

end Planner

end ShapeSql
