import ShapeSql.Proofs.Relation.Merge
import ShapeSql.Proofs.Relation.Resolve
import ShapeSql.Proofs.Relation.Resolver
import ShapeSql.Proofs.Tree

namespace ShapeSql

variable {s : Schema}

/-- The table of the relation is one of the schema's. -/
def Relation.Placed (s : Schema) (r : Relation) : Prop := ∃ t ∈ s.tables, t.id = r.table

/-- All relations of the trees are over tables of the schema. -/
def PlacedAll (s : Schema) (trees : List RelationTree) : Prop :=
  ∀ r ∈ Tree.preorderAll trees, r.Placed s

/-- All relations are over tables of the schema. -/
def Relations.Placed (s : Schema) (relations : Relations) : Prop := PlacedAll s [relations.tree]

theorem Relations.Placed.all {relations : Relations} (h : relations.Placed s) :
    ∀ r ∈ relations.all, r.Placed s := by
  intro r hr
  apply h r
  rw [Tree.preorderAll, Tree.preorderAll, List.append_nil]
  exact hr

theorem placedAll_nil : PlacedAll s [] := nofun

theorem PlacedAll.append {xs ys : List RelationTree} (hxs : PlacedAll s xs) (hys : PlacedAll s ys) :
    PlacedAll s (xs ++ ys) := by
  intro r hr
  rcases Tree.mem_preorderAll_append.mp hr with hleft | hright
  · exact hxs r hleft
  · exact hys r hright

theorem placedAll_node {label : Relation} {kids : List RelationTree} (hlabel : label.Placed s)
    (hkids : PlacedAll s kids) : PlacedAll s [.node label kids] := by
  intro r hr
  rw [Tree.preorderAll, Tree.preorder, Tree.preorderAll, List.append_nil] at hr
  rcases List.mem_cons.mp hr with rfl | hmem
  · exact hlabel
  · exact hkids r hmem

theorem PlacedAll.of_mem {trees : List RelationTree} (h : PlacedAll s trees) {t : RelationTree}
    (ht : t ∈ trees) : t.label.Placed s ∧ PlacedAll s t.children := by
  have hall : ∀ r ∈ t.preorder, r.Placed s := by
    intro r hr
    apply h r
    rw [Tree.preorderAll_eq_flatMap]
    exact List.mem_flatMap.mpr ⟨t, ht, hr⟩
  obtain ⟨label, kids⟩ := t
  exact ⟨hall label List.mem_cons_self, fun r hr => hall r (List.mem_cons_of_mem _ hr)⟩

theorem placedAll_of_forall {trees : List RelationTree}
    (h : ∀ t ∈ trees, PlacedAll s [t]) : PlacedAll s trees := by
  intro r hr
  rw [Tree.preorderAll_eq_flatMap] at hr
  obtain ⟨t, ht, hr⟩ := List.mem_flatMap.mp hr
  apply h t ht r
  rw [Tree.preorderAll, Tree.preorderAll, List.append_nil]
  exact hr

theorem PlacedAll.singleton {trees : List RelationTree} (h : PlacedAll s trees) {t : RelationTree}
    (ht : t ∈ trees) : PlacedAll s [t] := by
  obtain ⟨hlabel, hchildren⟩ := h.of_mem ht
  obtain ⟨label, kids⟩ := t
  exact placedAll_node hlabel hchildren

namespace Step

theorem ofLink_mem (hs : s.Sound) {target : Table} (htarget : target ∈ s.tables) {link : Link}
    (hlink : link.Sound s) (list : Bool) :
    ∀ step ∈ Step.ofLink s target link list, step.table ∈ s.tables := by
  intro step hstep
  cases link with
  | parentHolds pairs | childHolds pairs =>
    rw [List.mem_singleton.mp hstep]
    exact htarget
  | junction table toParent toChild =>
    obtain ⟨⟨junction, hjunction, rfl⟩, _, _⟩ := hlink
    rcases List.mem_cons.mp hstep with rfl | hlast
    · rw [hs.table_id hjunction]
      exact hjunction
    · rw [List.mem_singleton.mp hlast]
      exact htarget

theorem ofLegs_mem (list : Bool) {legs : List Leg} (hlegs : ∀ leg ∈ legs, leg.table ∈ s.tables) :
    ∀ step ∈ Step.ofLegs s list legs, step.table ∈ s.tables := by
  induction legs with
  | nil => exact nofun
  | cons leg rest ih =>
    have hleg := hlegs leg List.mem_cons_self
    have hrest := ih fun other hother => hlegs other (List.mem_cons_of_mem _ hother)
    intro step hstep
    cases rest with
    | nil =>
      rw [List.mem_singleton.mp hstep]
      exact hleg
    | cons second rest =>
      rcases List.mem_cons.mp hstep with rfl | hmem
      · exact hleg
      · exact hrest step hmem

end Step

theorem Supply.table_relation (supply : Supply) (table : TableId) (name : String) (path : Path)
    (join : List JoinPair) (kind : RelationKind) (desired : Option String) (parentAlias : String) :
    (supply.relation table name path join kind desired parentAlias).1.table = table := by
  unfold Supply.relation
  split
  · rfl
  · rfl

theorem Resolving.setUp_placed {name : String} {path : Path} {parentAlias : String}
    {steps : List Step} (hsteps : ∀ step ∈ steps, step.table ∈ s.tables) {supply supply' : Supply}
    {places : List Relation}
    (hrun : (setUp name path parentAlias steps).run supply = .ok (places, supply')) :
    ∀ r ∈ places, r.Placed s := by
  induction steps generalizing parentAlias supply places with
  | nil =>
    rw [setUp, run_pure_ok] at hrun
    rw [← hrun.1]
    exact nofun
  | cons step rest ih =>
    simp only [setUp, run_bind_ok, run_pure_ok, run_modifyGet_ok] at hrun
    obtain ⟨relation, between, hrelation, others, after, hothers, rfl, rfl⟩ := hrun
    intro r hr
    rcases List.mem_cons.mp hr with rfl | hmem
    · refine ⟨step.table, hsteps step List.mem_cons_self, ?_⟩
      have htable := supply.table_relation step.table.id name path step.join step.kind
        (step.desiredAlias path) parentAlias
      rw [hrelation] at htable
      exact htable.symm
    · exact ih (fun other hother => hsteps other (List.mem_cons_of_mem _ hother)) hothers r hmem

theorem nested_placed {columns : List ProjectedColumn} {kids : List RelationTree}
    {places : List Relation} (hkids : PlacedAll s kids) (hplaces : ∀ r ∈ places, r.Placed s) :
    PlacedAll s (nested columns kids places) := by
  induction places with
  | nil => exact hkids
  | cons r rest ih =>
    have hr := hplaces r List.mem_cons_self
    have hrest := ih fun other hother => hplaces other (List.mem_cons_of_mem _ hother)
    cases rest with
    | nil =>
      have hlast : ({ r with columns } : Relation).Placed s := hr
      exact placedAll_node hlast hkids
    | cons second rest => exact placedAll_node hr hrest

theorem last_table_mem {steps : List Step} (hsteps : ∀ step ∈ steps, step.table ∈ s.tables)
    {table : Table} (htable : table ∈ s.tables) :
    (steps.getLast?.map Step.table).getD table ∈ s.tables := by
  cases hlast : steps.getLast? with
  | none => exact htable
  | some step => exact hsteps step (List.mem_of_getLast? hlast)

namespace Resolver

variable {r : Resolver}

theorem stepsTo_mem (hs : r.schema.Sound) {table : Table} (htable : table ∈ r.schema.tables)
    {field : Field} {steps : List Step} (h : r.stepsTo table field = .ok steps) :
    ∀ step ∈ steps, step.table ∈ r.schema.tables := by
  rcases stepsTo_cases h with
    ⟨v, legs, _, hlegs, rfl⟩ | ⟨_, ⟨target, link, hfound, hlink, rfl⟩ | ⟨_, rfl⟩⟩
  · exact Step.ofLegs_mem _ (via_mem hlegs)
  · have htarget := mem_of_shapeTable hfound
    exact Step.ofLink_mem hs htarget (link_sound hs htable htarget hlink) _
  · exact List.forall_mem_singleton.mpr htable

mutual

theorem resolveField_placed (hs : r.schema.Sound) :
    ∀ (t : FieldTree) {table : Table} {aliasName : String} {columns : List ProjectedColumn}
      {supply supply' : Supply} {result : List ProjectedColumn × List RelationTree},
      table ∈ r.schema.tables →
      (r.resolveField table aliasName columns t).run supply = .ok (result, supply') →
        PlacedAll r.schema result.2
  | .node field kids, table, aliasName, columns, supply, supply', result, htable, hrun => by
    cases resolves_of_resolveField hrun with
    | excluded | scalar | cyclic => exact placedAll_nil
    | places _ _ _ hsteps hplaces hbelow =>
      have hmem := stepsTo_mem hs htable hsteps
      have htarget := last_table_mem hmem htable
      exact nested_placed (resolveFields_placed hs kids htarget hbelow)
        (Resolving.setUp_placed hmem hplaces)

theorem resolveFields_placed (hs : r.schema.Sound) :
    ∀ (ts : List FieldTree) {table : Table} {aliasName : String} {columns : List ProjectedColumn}
      {supply supply' : Supply} {result : List ProjectedColumn × List RelationTree},
      table ∈ r.schema.tables →
      (r.resolveFields table aliasName columns ts).run supply = .ok (result, supply') →
        PlacedAll r.schema result.2
  | [], table, aliasName, columns, supply, supply', result, htable, hrun => by
    rw [resolveFields, run_pure_ok] at hrun
    rw [← hrun.1]
    exact placedAll_nil
  | t :: ts, table, aliasName, columns, supply, supply', result, htable, hrun => by
    simp only [resolveFields, run_bind_ok, run_pure_ok] at hrun
    obtain ⟨⟨_, first⟩, between, hfirst, ⟨_, others⟩, after, hothers, rfl, rfl⟩ := hrun
    exact (resolveField_placed hs t htable hfirst).append
      (resolveFields_placed hs ts htable hothers)

end

theorem placed_ofTable {table : Table} (htable : table ∈ s.tables) :
    (Relations.ofTable table).Placed s :=
  placedAll_node ⟨table, htable, rfl⟩ placedAll_nil

/-- Projecting keys keeps the tables. -/
theorem placed_anchorKeys {relations : Relations} (h : relations.Placed s) (s' : Schema) :
    (relations.anchorKeys s').Placed s := by
  intro r hr
  rw [Relations.anchorKeys, Tree.preorderAll, Tree.preorderAll, List.append_nil,
    Tree.preorder_map] at hr
  obtain ⟨before, hbefore, rfl⟩ := List.mem_map.mp hr
  obtain ⟨t, ht, hid⟩ := h.all before hbefore
  refine ⟨t, ht, ?_⟩
  rw [hid, Relation.anchorKey]
  split
  · rfl
  · rfl

theorem resolve_placed (hs : r.schema.Sound) {table : Table} (htable : table ∈ r.schema.tables)
    {output : FieldTree} {relations : Relations} (h : r.resolve table output = .ok relations) :
    relations.Placed r.schema := by
  obtain ⟨columns, kids, supply, hrun, rfl⟩ := resolve_inv h
  apply placed_anchorKeys
  exact placedAll_node ⟨table, htable, rfl⟩ (resolveFields_placed hs output.children htable hrun)

theorem resolveSteps_placed (hs : r.schema.Sound) {steps : List String} {table : Table}
    (htable : table ∈ r.schema.tables) {aliasName : String} {walked : Path}
    {supply supply' : Supply} {trees : List RelationTree}
    (hrun : (r.resolveSteps table aliasName walked steps).run supply = .ok (trees, supply')) :
    PlacedAll r.schema trees := by
  induction steps generalizing table aliasName walked supply trees with
  | nil =>
    rw [resolveSteps, run_pure_ok] at hrun
    rw [← hrun.1]
    exact placedAll_nil
  | cons step rest ih =>
    obtain ⟨target, link, places, between, below, hfound, hlink, hplaces, hbelow, rfl⟩ :=
      resolveSteps_cons hrun
    have htarget := mem_of_findTable hfound
    have hsteps := Step.ofLink_mem hs htarget (link_sound hs htable htarget hlink) false
    exact nested_placed (ih htarget hbelow) (Resolving.setUp_placed hsteps hplaces)

theorem resolvePath_placed (hs : r.schema.Sound) {table : Table} (htable : table ∈ r.schema.tables)
    {path : Path} {relations : Relations} (h : r.resolvePath table path = .ok relations) :
    relations.Placed r.schema := by
  obtain ⟨kids, supply, hrun, rfl⟩ := resolvePath_inv h
  apply placed_anchorKeys
  exact placedAll_node ⟨table, htable, rfl⟩ (resolveSteps_placed hs htable hrun)

end Resolver

namespace Relations

mutual

theorem copyTree_placed : ∀ (t : RelationTree) (parentAlias : String) (supply : Supply),
    PlacedAll s [t] → PlacedAll s [(copyTree parentAlias t supply).1]
  | .node r kids, parentAlias, supply, h => by
    obtain ⟨hlabel, hkids⟩ := h.of_mem List.mem_cons_self
    obtain ⟨t, ht, hid⟩ := hlabel
    rw [copyTree]
    refine placedAll_node ⟨t, ht, ?_⟩ (copyTrees_placed kids _ _ hkids)
    exact hid.trans (supply.table_relation r.table r.name r.path r.join r.kind _ parentAlias).symm

theorem copyTrees_placed : ∀ (ts : List RelationTree) (parentAlias : String) (supply : Supply),
    PlacedAll s ts → PlacedAll s (copyTrees parentAlias ts supply).1
  | [], _, _, _ => placedAll_nil
  | t :: ts, parentAlias, supply, h => by
    rw [copyTrees]
    have hfirst := copyTree_placed t parentAlias supply (h.singleton List.mem_cons_self)
    have hrest := copyTrees_placed ts parentAlias (copyTree parentAlias t supply).2
      (placedAll_of_forall fun u hu => h.singleton (List.mem_cons_of_mem _ hu))
    exact hfirst.append hrest

end

mutual

theorem mergeTree_placed : ∀ (own other : RelationTree) (supply : Supply),
    PlacedAll s [own] → PlacedAll s [other] → PlacedAll s [(mergeTree own other supply).value]
  | own, .node r kids, supply, hown, hother => by
    obtain ⟨hlabel, hchildren⟩ := hown.of_mem List.mem_cons_self
    obtain ⟨_, hkids⟩ := hother.of_mem List.mem_cons_self
    rw [mergeTree]
    exact placedAll_node hlabel (mergeTrees_placed kids _ own.children supply hchildren hkids)

theorem mergeTrees_placed : ∀ (others : List RelationTree) (parentAlias : String)
    (own : List RelationTree) (supply : Supply), PlacedAll s own → PlacedAll s others →
      PlacedAll s (mergeTrees parentAlias own others supply).value
  | [], _, _, _, hown, _ => hown
  | t :: ts, parentAlias, own, supply, hown, hothers => by
    have ht : PlacedAll s [t] := hothers.singleton List.mem_cons_self
    have hts : PlacedAll s ts :=
      placedAll_of_forall fun u hu => hothers.singleton (List.mem_cons_of_mem _ hu)
    rcases mergeTrees_cons parentAlias own t ts supply with ⟨_, h⟩ |
      ⟨before, label, children, behind, rfl, _, ⟨_, h⟩ | ⟨join, _, hplaced⟩⟩
    · rw [h]
      exact mergeTrees_placed ts _ _ _ (hown.append (copyTree_placed t parentAlias supply ht)) hts
    · rw [h]
      exact hown
    · obtain ⟨hlabel, hchildren⟩ := hown.of_mem (List.mem_append_right _ List.mem_cons_self)
      have hmerged := mergeTree_placed (.node { label with join } children) t supply
        (placedAll_node hlabel hchildren) ht
      have hbefore : PlacedAll s before :=
        placedAll_of_forall fun c hc => hown.singleton (List.mem_append_left _ hc)
      have hbehind : PlacedAll s behind := placedAll_of_forall fun c hc =>
        hown.singleton (List.mem_append_right _ (List.mem_cons_of_mem _ hc))
      have hset := hbefore.append (hmerged.append hbehind)
      rcases hplaced with ⟨_, _, h⟩ | ⟨_, h⟩
      · rw [h]
        exact hset
      · rw [h]
        exact mergeTrees_placed ts _ _ _ hset hts

end

theorem merged_placed {own other relations : Relations} (hown : own.Placed s)
    (hother : other.Placed s) (h : own.merged other = .ok relations) : relations.Placed s := by
  unfold merged at h
  split at h
  · cases h
    unfold merge
    split
    · exact mergeTree_placed _ _ _ hown hother
    · exact hown
  · cases h

end Relations

end ShapeSql
