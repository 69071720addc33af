import ShapeSql.Proofs.Relation.Wired
import ShapeSql.Proofs.Shape.Unpaged

namespace ShapeSql

namespace FieldTree

mutual

/-- The fields stand at the paths that their names spell from here. -/
def Rooted (path : Path) : FieldTree → Prop
  | .node field kids => field.path = path ∧ RootedAll path kids

def RootedAll (path : Path) : List FieldTree → Prop
  | [] => True
  | t :: ts => Rooted (path.join t.label.name) t ∧ RootedAll path ts

end

theorem rootedAll_iff {path : Path} {ts : List FieldTree} :
    RootedAll path ts ↔ ∀ t ∈ ts, Rooted (path.join t.label.name) t := by
  induction ts with
  | nil => exact ⟨fun _ => nofun, fun _ => trivial⟩
  | cons t ts ih => rw [RootedAll, List.forall_mem_cons, ih]

/-- Unfolding a field keeps its name and puts the fields below it one step further. -/
theorem expand_rooted {shapes : Shapes} {depth : Nat} {above : List Field} {field : Field}
    {t : FieldTree} (h : expand shapes depth above field = .ok t) :
    t.label.name = field.name ∧ t.Rooted field.path := by
  induction depth generalizing above field t with
  | zero =>
    cases h
    exact ⟨rfl, rfl, trivial⟩
  | succ depth ih =>
    unfold expand at h
    split at h
    · cases h
      exact ⟨rfl, rfl, trivial⟩
    · split at h
      · cases h
      · simp only at h
        split at h
        · cases h
          exact ⟨rfl, rfl, trivial⟩
        · obtain ⟨kids, hkids, h⟩ := except_bind_ok.mp h
          cases h
          refine ⟨rfl, rfl, rootedAll_iff.mpr ?_⟩
          intro kid hkid
          obtain ⟨d, _, hkid⟩ := mem_of_mapM_ok hkids hkid
          obtain ⟨hname, hrooted⟩ := ih hkid
          rw [hname]
          exact hrooted

theorem ofType_rooted {name : String} {type : FieldType} {shapes : Shapes} {t : FieldTree}
    (h : ofType name type shapes = .ok t) : t.Rooted .root := (expand_rooted h).2

end FieldTree

/-- The output of a specification that was declared is the tree of a type, from the root path on; one
that returns rows has an output. -/
theorem SpecDeclaration.output_cases {declaration : SpecDeclaration} {shapes : Shapes}
    {spec : QuerySpec} (h : declaration.build shapes = .ok spec) :
    (∃ output, spec.output = some output ∧ output.Rooted .root) ∨
      spec.output = none ∧ spec.outputKind ≠ .one ∧ spec.outputKind ≠ .many := by
  obtain ⟨arguments, output, kind, _, hyields, rfl⟩ := build_inv h
  cases hyields with
  | rows _ htree => exact Or.inl ⟨_, rfl, FieldTree.ofType_rooted htree⟩
  | nothing =>
    refine Or.inr ⟨rfl, ?_⟩
    show (if _ then _ else _) ≠ Output.one ∧ (if _ then _ else _) ≠ Output.many
    split
    · exact ⟨nofun, nofun⟩
    · split
      · exact ⟨nofun, nofun⟩
      · exact ⟨nofun, nofun⟩

/-- The path of the nearest place with a table that the output names, `owner` if it is further up. -/
def Relation.ownerBelow (r : Relation) (owner : Path) : Path := if r.isBound then r.path else owner

mutual

/-- By their paths, the places that share a level and project columns lie below the place that owns the
level, the first below `owner`. -/
def Nests (owner : Path) : RelationTree → Prop
  | .node r kids =>
    (r.isBound = false → r.columns = [] ∨ owner.steps <+: r.path.steps) ∧
      NestsAll (r.ownerBelow owner) kids

def NestsAll (owner : Path) : List RelationTree → Prop
  | [] => True
  | t :: ts => Nests owner t ∧ NestsAll owner ts

end

theorem nestsAll_iff {owner : Path} {ts : List RelationTree} :
    NestsAll owner ts ↔ ∀ t ∈ ts, Nests owner t := by
  induction ts with
  | nil => exact ⟨fun _ => nofun, fun _ => trivial⟩
  | cons t ts ih => rw [NestsAll, List.forall_mem_cons, ih]

theorem NestsAll.append {above : Path} {xs ys : List RelationTree} (hxs : NestsAll above xs)
    (hys : NestsAll above ys) : NestsAll above (xs ++ ys) := by
  rw [nestsAll_iff, List.forall_mem_append]
  exact ⟨nestsAll_iff.mp hxs, nestsAll_iff.mp hys⟩

mutual

/-- What lies below a path lies below any path around it. -/
theorem Nests.outer {owner path : Path} (hstarts : owner.steps <+: path.steps) :
    ∀ {t : RelationTree}, Nests path t → Nests owner t
  | .node r kids, ⟨hr, hkids⟩ => by
    refine ⟨fun hbound => (hr hbound).imp id hstarts.trans, ?_⟩
    cases hbound : r.isBound with
    | true =>
      rw [Relation.ownerBelow, hbound] at hkids ⊢
      exact hkids
    | false =>
      rw [Relation.ownerBelow, hbound] at hkids ⊢
      exact NestsAll.outer hstarts hkids

theorem NestsAll.outer {owner path : Path} (hstarts : owner.steps <+: path.steps) :
    ∀ {ts : List RelationTree}, NestsAll path ts → NestsAll owner ts
  | [], _ => trivial
  | _ :: _, ⟨ht, hts⟩ => ⟨Nests.outer hstarts ht, NestsAll.outer hstarts hts⟩

end

theorem Relation.isBound_of_kind {a b : Relation} (h : a.kind = b.kind) : a.isBound = b.isBound := by
  simp only [isBound, isTransparent, isEmbedded, h]

/-- Only navigations project columns. -/
def Bare (trees : List RelationTree) : Prop :=
  ∀ r ∈ Tree.preorderAll trees, r.isBound = false → r.columns = []

theorem bare_cons {r : Relation} {kids trees : List RelationTree} :
    Bare (.node r kids :: trees) ↔
      (r.isBound = false → r.columns = []) ∧ Bare kids ∧ Bare trees := by
  simp only [Bare, Tree.preorderAll, Tree.preorder, List.cons_append, List.forall_mem_cons,
    List.forall_mem_append]

mutual

theorem nests_of_bare : ∀ (t : RelationTree) (above : Path), Bare [t] → Nests above t
  | .node r kids, above, h => by
    obtain ⟨hr, hkids, _⟩ := bare_cons.mp h
    exact ⟨fun hbound => Or.inl (hr hbound), nestsAll_of_bare kids _ hkids⟩

theorem nestsAll_of_bare : ∀ (ts : List RelationTree) (above : Path), Bare ts → NestsAll above ts
  | [], _, _ => trivial
  | t :: ts, above, h => by
    refine ⟨nests_of_bare t above ?_, nestsAll_of_bare ts above ?_⟩
    · intro r hr
      rw [Tree.preorderAll, Tree.preorderAll, List.append_nil] at hr
      exact h r (List.mem_append_left _ hr)
    · exact fun r hr => h r (List.mem_append_right _ hr)

end

theorem Supply.path_relation (supply : Supply) (table : TableId) (name : String) (path : Path)
    (join : List JoinPair) (kind : RelationKind) (desired : Option String) (parentAlias : String) :
    (supply.relation table name path join kind desired parentAlias).1.path = path ∧
      (supply.relation table name path join kind desired parentAlias).1.kind = kind ∧
        (supply.relation table name path join kind desired parentAlias).1.columns = [] := by
  unfold Supply.relation
  split
  · exact ⟨rfl, rfl, rfl⟩
  · exact ⟨rfl, rfl, rfl⟩

/-- All places that are set up together have one path, and no columns yet. -/
theorem Resolving.setUp_paths {name : String} {path : Path} {parentAlias : String}
    {steps : List Step} {supply supply' : Supply} {places : List Relation}
    (hrun : (setUp name path parentAlias steps).run supply = .ok (places, supply')) :
    ∀ r ∈ places, r.path = path ∧ r.columns = [] := by
  induction steps generalizing parentAlias supply places with
  | nil =>
    rw [setUp, run_pure_ok] at hrun
    rw [← hrun.1]
    exact List.forall_mem_nil _
  | cons step rest ih =>
    simp only [setUp, run_bind_ok, run_pure_ok, run_modifyGet_ok] at hrun
    obtain ⟨relation, between, hrelation, others, after, hothers, rfl, rfl⟩ := hrun
    intro r hr
    rcases List.mem_cons.mp hr with rfl | hmem
    · have hsame := supply.path_relation step.table.id name path step.join step.kind
        (step.desiredAlias path) parentAlias
      rw [hrelation] at hsame
      exact ⟨hsame.1, hsame.2.2⟩
    · exact ih hothers r hmem

theorem nested_bare {kids : List RelationTree} (hkids : Bare kids) {places : List Relation}
    (hplaces : ∀ r ∈ places, r.columns = []) : Bare (nested [] kids places) := by
  induction places with
  | nil => exact hkids
  | cons r rest ih =>
    rw [List.forall_mem_cons] at hplaces
    cases rest with
    | nil => exact bare_cons.mpr ⟨fun _ => rfl, hkids, nofun⟩
    | cons second rest => exact bare_cons.mpr ⟨fun _ => hplaces.1, ih hplaces.2, nofun⟩

/-- Places of one path hang together. -/
theorem nested_nests {above path : Path} (hstarts : above.steps <+: path.steps)
    {columns : List ProjectedColumn} {kids : List RelationTree} (hkids : NestsAll path kids)
    {places : List Relation} (hplaces : ∀ r ∈ places, r.path = path) :
    NestsAll above (nested columns kids places) := by
  induction places generalizing above with
  | nil => exact hkids.outer hstarts
  | cons r rest ih =>
    rw [List.forall_mem_cons] at hplaces
    have hr : above.steps <+: r.path.steps := hplaces.1 ▸ hstarts
    cases rest with
    | nil =>
      refine ⟨⟨fun _ => Or.inr hr, ?_⟩, trivial⟩
      unfold Relation.ownerBelow
      split
      · show NestsAll r.path kids
        rw [hplaces.1]
        exact hkids
      · exact hkids.outer hstarts
    | cons second rest =>
      refine ⟨⟨fun _ => Or.inr hr, ?_⟩, trivial⟩
      unfold Relation.ownerBelow
      split
      · exact ih (hplaces.1 ▸ List.prefix_rfl) hplaces.2
      · exact ih hstarts hplaces.2

namespace Resolver

variable {r : Resolver}

theorem join_starts (path : Path) (step : String) : path.steps <+: (path.join step).steps :=
  List.prefix_append _ _

mutual

theorem resolveField_nests : ∀ (t : FieldTree) {table : Table} {aliasName : String}
    {columns : List ProjectedColumn} {supply supply' : Supply}
    {result : List ProjectedColumn × List RelationTree} {above : Path},
    t.Rooted (above.join t.label.name) →
    (r.resolveField table aliasName columns t).run supply = .ok (result, supply') →
      NestsAll above result.2
  | .node field kids, table, aliasName, columns, supply, supply', result, above, hrooted, hrun => by
    obtain ⟨hpath, hkids⟩ := hrooted
    cases resolves_of_resolveField hrun with
    | excluded | scalar | cyclic => trivial
    | places _ _ _ _ hplaces hbelow =>
      have hplaced := fun place hplace => (Resolving.setUp_paths hplaces place hplace).1.trans hpath
      exact nested_nests (join_starts above field.name) (resolveFields_nests kids hkids hbelow) hplaced

theorem resolveFields_nests : ∀ (ts : List FieldTree) {table : Table} {aliasName : String}
    {columns : List ProjectedColumn} {supply supply' : Supply}
    {result : List ProjectedColumn × List RelationTree} {above : Path},
    FieldTree.RootedAll above ts →
    (r.resolveFields table aliasName columns ts).run supply = .ok (result, supply') →
      NestsAll above result.2
  | [], table, aliasName, columns, supply, supply', result, above, _, hrun => by
    rw [resolveFields, run_pure_ok] at hrun
    rw [← hrun.1]
    trivial
  | t :: ts, table, aliasName, columns, supply, supply', result, above, ⟨hfirst, hrest⟩, hrun => by
    simp only [resolveFields, run_bind_ok, run_pure_ok] at hrun
    obtain ⟨⟨_, first⟩, between, hrunFirst, ⟨_, others⟩, after, hothers, rfl, rfl⟩ := hrun
    exact (resolveField_nests t hfirst hrunFirst).append (resolveFields_nests ts hrest hothers)

end

/-- The places along a path of table names project nothing. -/
theorem resolveSteps_bare {steps : List String} {table : Table} {aliasName : String} {walked : Path}
    {supply supply' : Supply} {trees : List RelationTree}
    (hrun : (r.resolveSteps table aliasName walked steps).run supply = .ok (trees, supply')) :
    Bare trees := by
  induction steps generalizing table aliasName walked supply trees with
  | nil =>
    rw [resolveSteps, run_pure_ok] at hrun
    rw [← hrun.1]
    exact List.forall_mem_nil _
  | cons step rest ih =>
    obtain ⟨_, _, places, between, below, _, _, hplaces, hbelow, rfl⟩ := resolveSteps_cons hrun
    exact nested_bare (ih hbelow) fun place hplace => (Resolving.setUp_paths hplaces place hplace).2

end Resolver

namespace Relations

mutual

theorem copyTree_bare : ∀ (t : RelationTree) (parentAlias : String) (supply : Supply),
    Bare [t] → Bare [(copyTree parentAlias t supply).1]
  | .node r kids, parentAlias, supply, h => by
    obtain ⟨hr, hkids, _⟩ := bare_cons.mp h
    rw [copyTree]
    refine bare_cons.mpr ⟨?_, copyTrees_bare kids _ _ hkids, nofun⟩
    have hkind := (supply.path_relation r.table r.name r.path r.join r.kind
      (if r.isEmbedded then none else some r.aliasName) parentAlias).2.1
    intro hbound
    apply hr
    rw [← hbound]
    exact (Relation.isBound_of_kind hkind).symm

theorem copyTrees_bare : ∀ (ts : List RelationTree) (parentAlias : String) (supply : Supply),
    Bare ts → Bare (copyTrees parentAlias ts supply).1
  | [], _, _, _ => nofun
  | .node r kids :: ts, parentAlias, supply, h => by
    obtain ⟨hr, hkids, hts⟩ := bare_cons.mp h
    have hfirst := copyTree_bare (.node r kids) parentAlias supply (bare_cons.mpr ⟨hr, hkids, nofun⟩)
    have hrest := copyTrees_bare ts parentAlias (copyTree parentAlias (.node r kids) supply).2 hts
    rw [copyTrees]
    intro q hq
    rcases List.mem_append.mp hq with hq | hq
    · exact hfirst q (List.mem_append_left _ hq)
    · exact hrest q hq

end

mutual

theorem mergeTree_nests : ∀ (other own : RelationTree) (supply : Supply) {above : Path},
    Bare [other] → Nests above own → own.label.isBound = other.label.isBound →
      Nests above (mergeTree own other supply).value
  | .node r kids, .node label children, supply, above, hother, ⟨hlabel, hchildren⟩, hbound => by
    obtain ⟨hr, hkids, _⟩ := bare_cons.mp hother
    rw [mergeTree]
    refine ⟨?_, mergeTrees_nests kids label.aliasName children supply hkids hchildren⟩
    intro hown
    have hnone : r.columns = [] := hr (hbound ▸ hown)
    show uniteColumns label.columns r.columns = [] ∨ above.steps <+: label.path.steps
    rw [hnone]
    exact hlabel hown

theorem mergeTrees_nests : ∀ (others : List RelationTree) (parentAlias : String)
    (own : List RelationTree) (supply : Supply) {above : Path}, Bare others → NestsAll above own →
      NestsAll above (mergeTrees parentAlias own others supply).value
  | [], _, _, _, _, _, hown => hown
  | t :: ts, parentAlias, own, supply, above, hothers, hown => by
    have ht : Bare [t] := by
      intro r hr
      rw [Tree.preorderAll, Tree.preorderAll, List.append_nil] at hr
      exact hothers r (List.mem_append_left _ hr)
    have hts : Bare ts := fun r hr => hothers r (List.mem_append_right _ hr)
    rcases mergeTrees_cons parentAlias own t ts supply with ⟨_, h⟩ |
      ⟨before, label, children, behind, rfl, hmatching, ⟨_, h⟩ | ⟨join, _, hplaced⟩⟩
    · rw [h]
      have hcopy := nests_of_bare _ above (copyTree_bare t parentAlias supply ht)
      exact mergeTrees_nests ts _ _ _ hts (hown.append ⟨hcopy, trivial⟩)
    · rw [h]
      exact hown
    · rw [nestsAll_iff, List.forall_mem_append, List.forall_mem_cons] at hown
      obtain ⟨hbefore, hpresent, hbehind⟩ := hown
      have hbound : label.isBound = t.label.isBound :=
        Relation.isBound_of_kind (matching_iff.mp hmatching).2.1
      have hmerged := mergeTree_nests t (.node { label with join } children) supply ht hpresent hbound
      have hset : NestsAll above
          (before ++ (mergeTree (.node { label with join } children) t supply).value :: behind) := by
        rw [nestsAll_iff, List.forall_mem_append, List.forall_mem_cons]
        exact ⟨hbefore, hmerged, hbehind⟩
      rcases hplaced with ⟨_, _, h⟩ | ⟨_, h⟩
      · rw [h]
        exact hset
      · rw [h]
        exact mergeTrees_nests ts _ _ _ hts hset

end

theorem merged_nests {own other relations : Relations} (hown : Nests .root own.tree)
    (hother : Bare [other.tree]) (hbound : own.root.isBound = other.root.isBound)
    (h : own.merged other = .ok relations) : Nests .root relations.tree := by
  unfold merged at h
  split at h
  · cases h
    unfold merge
    split
    · exact mergeTree_nests _ _ _ hother hown hbound
    · exact hown
  · cases h

mutual

theorem nests_anchorKeys (s : Schema) : ∀ (t : RelationTree) {above : Path}, Nests above t →
    Nests above (t.map (Relation.anchorKey s))
  | .node r kids, above, ⟨hr, hkids⟩ => by
    have hpath : (r.anchorKey s).path = r.path := by
      unfold Relation.anchorKey
      split
      · rfl
      · rfl
    have hkind : (r.anchorKey s).isBound = r.isBound :=
      Relation.isBound_of_kind (same_anchorKey s r).2.2.1
    rw [Tree.map, Nests, Relation.ownerBelow, hpath, hkind]
    refine ⟨?_, nestsAll_anchorKeys s kids hkids⟩
    unfold Relation.anchorKey
    split
    · rename_i hbound
      intro hnot
      rw [hnot] at hbound
      cases hbound
    · exact hr

theorem nestsAll_anchorKeys (s : Schema) : ∀ (ts : List RelationTree) {above : Path},
    NestsAll above ts → NestsAll above (Tree.mapAll (Relation.anchorKey s) ts)
  | [], _, _ => trivial
  | t :: ts, _, ⟨ht, hts⟩ => ⟨nests_anchorKeys s t ht, nestsAll_anchorKeys s ts hts⟩

end

end Relations

namespace Resolver

variable {r : Resolver} {table : Table}

theorem resolve_nests {output : FieldTree} (houtput : output.Rooted .root) {relations : Relations}
    (h : r.resolve table output = .ok relations) : Nests .root relations.tree := by
  obtain ⟨columns, kids, supply, hrun, rfl⟩ := resolve_inv h
  obtain ⟨field, below⟩ := output
  apply Relations.nests_anchorKeys
  refine ⟨?_, resolveFields_nests below houtput.2 hrun⟩
  intro hbound
  cases hbound

theorem resolvePath_bare {path : Path} {relations : Relations}
    (h : r.resolvePath table path = .ok relations) : Bare [relations.tree] := by
  obtain ⟨kids, supply, hrun, rfl⟩ := resolvePath_inv h
  have hbare : Bare [.node (Relations.ofTable table).root kids] :=
    bare_cons.mpr ⟨fun _ => rfl, resolveSteps_bare hrun, nofun⟩
  intro q hq
  have hmap : Tree.preorderAll [Tree.map (Relation.anchorKey r.schema)
      (.node (Relations.ofTable table).root kids)] =
        (Tree.preorderAll [.node (Relations.ofTable table).root kids]).map
          (Relation.anchorKey r.schema) :=
    Tree.preorderAll_mapAll (Relation.anchorKey r.schema) [.node (Relations.ofTable table).root kids]
  have hq : q ∈ (Tree.preorderAll [.node (Relations.ofTable table).root kids]).map
      (Relation.anchorKey r.schema) := hmap ▸ hq
  obtain ⟨before, hbefore, rfl⟩ := List.mem_map.mp hq
  have hplain := hbare before hbefore
  unfold Relation.anchorKey
  split
  · rename_i hbound
    intro hnot
    rw [show before.isBound = false from hnot] at hbound
    cases hbound
  · exact hplain

end Resolver

end ShapeSql
