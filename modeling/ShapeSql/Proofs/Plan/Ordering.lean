import ShapeSql.Proofs.Plan.Basic
import ShapeSql.Proofs.Relation.Placed

namespace ShapeSql

open Sql

/-- The tables an ordering chooses from are tables of the schema. -/
def Action.Placed (s : Schema) : Action → Prop
  | .dynamicOrder first others => ∀ target ∈ first :: others, ∃ t ∈ s.tables, t.id = target.table
  | _ => True

theorem Action.placed_of_place {s : Schema} {action : Action} (h : action.place ≠ .order) :
    action.Placed s := by
  cases action with
  | dynamicOrder _ _ => exact absurd rfl h
  | _ => trivial

namespace Draft

/-- All orderings choose from tables of the schema. -/
def Placed (s : Schema) (d : Draft) : Prop := ∀ rule ∈ d.rules, rule.action.Placed s

variable {s : Schema} {d d' : Draft}

theorem placed_of_rules_eq_nil (h : d.rules = []) : d.Placed s := by
  intro rule hrule
  rw [h] at hrule
  cases hrule

theorem Extends.placed {marked : List (Place × Path)} (h : d.Extends marked d')
    (hmarked : ∀ path, (.order, path) ∉ marked) (hd : d.Placed s) : d'.Placed s := by
  intro rule hrule
  by_cases hplace : rule.action.place = .order
  · exact hd rule (h.mem_of_unmarked (Or.inr rfl) hmarked hrule hplace)
  · exact Action.placed_of_place hplace

end Draft

namespace Planner

variable {p : Planner} {d d' : Draft}

theorem not_ordering_mem_comparisons (fields : List Field) (path : Path) :
    (.order, path) ∉ fields.map comparison :=
  not_mem_map_of_ne (by decide) fields path

theorem joinTarget_placed (hs : p.schema.Sound) (htable : p.table ∈ p.schema.tables)
    {relations after : Relations} {join path : Path} {target : Relation}
    (hrelations : relations.Placed p.schema)
    (h : p.joinTarget relations join path = .ok (target, after)) : after.Placed p.schema := by
  rcases joinTarget_cases h with ⟨_, rfl⟩ | ⟨_, extra, hextra, hmerged, _⟩
  · exact hrelations
  · exact Relations.merged_placed hrelations (Resolver.resolvePath_placed hs htable hextra) hmerged

theorem selectFilter_placed (hs : p.schema.Sound) (htable : p.table ∈ p.schema.tables)
    {relations after : Relations} {argument : FieldTree} {filter : Filter}
    (hrelations : relations.Placed p.schema)
    (hrun : (p.selectFilter relations argument).run d = .ok ((filter, after), d')) :
    after.Placed p.schema := by
  rcases selectFilter_cases hrun with ⟨_, rfl, _⟩ | ⟨_, _, _, hjoined, _⟩
  · exact hrelations
  · exact joinTarget_placed hs htable hrelations hjoined

theorem selectFilters_placed (hs : p.schema.Sound) (htable : p.table ∈ p.schema.tables)
    {relations after : Relations} {arguments : List FieldTree} {filters : List Filter}
    (hrelations : relations.Placed p.schema)
    (hrun : (p.selectFilters relations arguments).run d = .ok ((filters, after), d')) :
    after.Placed p.schema := by
  induction arguments generalizing d relations filters with
  | nil =>
    simp only [selectFilters, run_pure_ok, Prod.mk.injEq] at hrun
    obtain ⟨⟨rfl, rfl⟩, rfl⟩ := hrun
    exact hrelations
  | cons argument rest ih =>
    obtain ⟨first, middle, between, others, hfirst, hrest, rfl⟩ := selectFilters_cons hrun
    exact ih (selectFilter_placed hs htable hrelations hfirst) hrest

theorem orderAction_placed {relations : Relations} (hrelations : relations.Placed p.schema)
    {field : Field} {action : Action} (h : p.orderAction relations field = .ok (some action)) :
    action.Placed p.schema := by
  cases asksOrder h with
  | column | direction => trivial
  | dynamic =>
    intro target htarget
    rcases List.mem_cons.mp htarget with rfl | hother
    · exact hrelations.all _ (Tree.label_mem_preorder _)
    · obtain ⟨v, hv, rfl⟩ := List.mem_map.mp hother
      have hvisit : v ∈ relations.tree.visits := List.mem_of_mem_drop (List.mem_of_mem_filter hv)
      exact hrelations.all _ (Tree.label_mem_of_visitsBelow _ hvisit)

theorem orderItems_placed {relations : Relations} (hrelations : relations.Placed p.schema)
    {fields : List Field} {items : List OrderItem} (hd : d.Placed p.schema)
    (hrun : (p.orderItems relations fields).run d = .ok (items, d')) : d'.Placed p.schema := by
  induction fields generalizing d items with
  | nil =>
    simp only [orderItems, run_pure_ok] at hrun
    obtain ⟨rfl, rfl⟩ := hrun
    exact hd
  | cons field rest ih =>
    rcases orderItems_cons hrun with ⟨_, hrest⟩ | ⟨_, _, _, _, hfound, hhole, hothers, rfl⟩
    · exact ih hd hrest
    · refine ih ?_ hothers
      cases hhole
      intro rule hrule
      rcases List.mem_append.mp hrule with hold | hnew
      · exact hd rule hold
      · rw [List.mem_singleton.mp hnew]
        exact orderAction_placed hrelations hfound

theorem outputRelations_placed (hs : p.schema.Sound) (htable : p.table ∈ p.schema.tables)
    {relations : Relations} (h : p.outputRelations = .ok relations) : relations.Placed p.schema := by
  unfold outputRelations at h
  split at h
  · exact Resolver.resolve_placed hs htable h
  · cases h
    exact Resolver.placed_ofTable htable

theorem select_placed (hs : p.schema.Sound) (htable : p.table ∈ p.schema.tables) {query : Query}
    {relations : Relations} (hd : d.Sound) (hrules : d.rules = [])
    (hrun : p.select.run d = .ok ((query, relations), d')) : d'.Placed p.schema := by
  obtain ⟨start, filters, joined, order, between, after, hstart, hfilters, horder, hlast, _⟩ :=
    p.select_cases hd hrun
  obtain ⟨hfiltered, _⟩ := p.selectFilters_extends hd hfilters
  have hjoined : joined.Placed p.schema :=
    selectFilters_placed hs htable (outputRelations_placed hs htable hstart) hfilters
  have hbetween : between.Placed p.schema :=
    hfiltered.placed (not_ordering_mem_comparisons _) (Draft.placed_of_rules_eq_nil hrules)
  have hafter : after.Placed p.schema :=
    orderItems_placed (Resolver.placed_anchorKeys hjoined _) hbetween horder
  exact hlast.placed (fun _ => List.not_mem_nil) hafter

theorem statements_placed (hs : p.schema.Sound) (htable : p.table ∈ p.schema.tables)
    {batch : Batch} {relations : Option Relations} (hd : d.Sound) (hrules : d.rules = [])
    (hrun : (Plan.statements p).run d = .ok ((batch, relations), d')) : d'.Placed p.schema := by
  have hnone : d.Placed p.schema := Draft.placed_of_rules_eq_nil hrules
  cases stated hrun with
  | select _ hselect => exact select_placed hs htable hd hrules hselect
  | write _ hwrite =>
    exact (p.write_extends hd hwrite).1.placed (fun _ => List.not_mem_nil) hnone
  | update _ hupdate =>
    refine (p.update_extends hd hrules hupdate).1.placed ?_ hnone
    intro path hmem
    rcases List.mem_append.mp hmem with hset | hfilter
    · exact not_mem_map_of_ne (by decide) _ path hset
    · exact not_ordering_mem_comparisons _ path hfilter
  | delete _ hdelete =>
    exact (p.delete_extends hd hdelete).1.placed (not_ordering_mem_comparisons _) hnone

end Planner

/-- Over a sound schema the orderings of a plan choose from its tables. -/
theorem Plan.ofSpec_placed {r : Resolver} {windowAlias : String} {spec : QuerySpec} {plan : Plan}
    (hs : r.schema.Sound) (h : ofSpec r windowAlias spec = .ok plan) :
    ∀ rule ∈ plan.rules, rule.action.Placed r.schema := by
  obtain ⟨p, d, rfl, htable, _, hrun, hrules, _⟩ := ofSpec_cases h
  rw [hrules]
  exact Planner.statements_placed hs htable Draft.sound_default rfl hrun

end ShapeSql
