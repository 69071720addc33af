import ShapeSql.Proofs.Relation.Mirrored
import ShapeSql.Proofs.Relation.Veiled
import ShapeSql.Proofs.Shape.Expansion

namespace ShapeSql

theorem FieldType.shapeName?_of_isScalar {type : FieldType} (h : type.isScalar = true) :
    type.shapeName? = none := by
  induction type with
  | list _ ih => exact ih h
  | shape _ => cases h
  | _ => rfl

namespace FieldTree

/-- The fields beside each other differ in name, up to case. -/
def NamesDiffer (t : FieldTree) : Prop :=
  ∀ v ∈ t.visits, (v.children.map fun f => lowerAscii f.name).Nodup

instance (t : FieldTree) : Decidable t.NamesDiffer :=
  inferInstanceAs (Decidable (∀ v ∈ t.visits, (v.children.map fun f : Field => lowerAscii f.name).Nodup))

/-- The trees below some fields differ in the names of their topmost fields, and so do those further below. -/
def DifferBelow (above : List Field) (ts : List FieldTree) : Prop :=
  ((ts.map Tree.label).map fun f => lowerAscii f.name).Nodup ∧
    ∀ v ∈ Tree.visitsBelowAll above ts, (v.children.map fun f => lowerAscii f.name).Nodup

theorem NamesDiffer.below {field : Field} {kids : List FieldTree}
    (h : NamesDiffer (.node field kids)) : DifferBelow [field] kids := by
  rw [NamesDiffer, Tree.visits, Tree.visitsBelow, List.forall_mem_cons] at h
  exact h

theorem DifferBelow.cons {above : List Field} {field : Field} {kids ts : List FieldTree}
    (h : DifferBelow above (.node field kids :: ts)) :
    (∀ t ∈ ts, lowerAscii field.name ≠ lowerAscii t.label.name) ∧ DifferBelow (field :: above) kids ∧
      DifferBelow above ts := by
  obtain ⟨hnames, hvisits⟩ := h
  rw [Tree.visitsBelowAll, List.forall_mem_append, Tree.visitsBelow, List.forall_mem_cons] at hvisits
  rw [List.map_cons, List.map_cons, List.nodup_cons] at hnames
  refine ⟨fun t ht hsame => ?_, ⟨hvisits.1.1, hvisits.1.2⟩, hnames.2, hvisits.2⟩
  exact hnames.1 (List.mem_map.mpr ⟨t.label, List.mem_map_of_mem ht, hsame.symm⟩)

/-- Only fields with a shape have fields below them. -/
theorem ofType_closed {name : String} {type : FieldType} {shapes : Shapes} {t : FieldTree}
    (h : ofType name type shapes = .ok t) :
    ∀ v ∈ t.visits, v.label.isScalar = true → v.children = [] := by
  intro v hv hscalar
  have hunfolded := expand_unfolded (settles_of_le rfl (Nat.le_refl _)) rfl (declared_of_top rfl)
    (List.forall_mem_nil _) h v hv
  refine hunfolded.closed fun hexpands => ?_
  have hnone := FieldType.shapeName?_of_isScalar hscalar
  rw [Field.Expands, hnone] at hexpands
  cases hexpands.1

end FieldTree

namespace Relations

/-- The steps are the names, up to case. -/
def SameSteps (steps names : List String) : Prop :=
  List.Forall₂ (fun step name => sameName step name = true) steps names

instance (steps names : List String) : Decidable (SameSteps steps names) :=
  inferInstanceAs (Decidable (List.Forall₂ (fun step name => sameName step name = true) steps names))

/-- The visit of a place that is shown, as it has grown, right behind places that are not. -/
structure StandsBehind (passed : List Relation) (node : Relation) (w : Tree.Visit Relation) : Prop where
  hidden : ∀ q ∈ passed, q.isTransparent = true
  shown : node.isTransparent = false
  same : node.Extends w.label
  behind : ∃ before rest, w.ancestors = before.reverse ++ rest ∧
    List.Forall₂ Relation.Extends passed before

/-- In trees below some places, steps find a place behind those that they pass. -/
structure FoundBelow (above : List Relation) (trees : List RelationTree) (steps : List String)
    (passed : List Relation) (node : Relation) (w : Tree.Visit Relation) : Prop extends
    StandsBehind passed node w where
  visit : w ∈ Tree.visitsBelowAll above trees
  found : ∀ q, (findSteps (.node q trees) steps).map Tree.label = some w.label

section Search

variable {above between passed : List Relation} {first found : RelationTree}
  {trees rest : List RelationTree} {step : String} {steps : List String} {node : Relation}
  {w : Tree.Visit Relation}

/-- What a step comes to is found. -/
theorem FoundBelow.here (hpassed : ∀ q ∈ passed, q.isTransparent = true)
    (hshown : node.isTransparent = false) (hpasses : PassesTo step first between found)
    (hbetween : List.Forall₂ Relation.Extends passed between) (hsame : node.Extends found.label) :
    ∃ w, FoundBelow above (first :: rest) [step] passed node w := by
  obtain ⟨r, kids⟩ := found
  refine ⟨⟨r, between.reverse ++ above, kids.map Tree.label⟩,
    ⟨hpassed, hshown, hsame, between, above, rfl, hbetween⟩, ?_, fun q => ?_⟩
  · rw [Tree.visitsBelowAll]
    exact List.mem_append_left _ (hpasses.visits above _ List.mem_cons_self)
  · rw [findSteps_cons, hpasses.findChild rest]
    rfl

/-- What is found below the place that a step comes to is found by one step more. -/
theorem FoundBelow.below (hpasses : PassesTo step first between found)
    (h : FoundBelow (found.label :: (between.reverse ++ above)) found.children steps passed node w) :
    FoundBelow above (first :: rest) (step :: steps) passed node w where
  toStandsBehind := h.toStandsBehind
  visit := by
    obtain ⟨r, kids⟩ := found
    rw [Tree.visitsBelowAll]
    exact List.mem_append_left _ (hpasses.visits above w (List.mem_cons_of_mem _ h.visit))
  found q := by
    rw [findSteps_cons, hpasses.findChild rest, Option.bind_some]
    obtain ⟨r, kids⟩ := found
    exact h.found r

/-- Trees in front that do not show the name of the first step are passed over. -/
theorem FoundBelow.later {left right : List RelationTree} (hnone : findChild step left = none)
    (h : FoundBelow above right (step :: steps) passed node w) :
    FoundBelow above (left ++ right) (step :: steps) passed node w where
  toStandsBehind := h.toStandsBehind
  visit := by
    obtain ⟨t, ht, hw⟩ := Tree.mem_visitsBelowAll.mp h.visit
    exact Tree.mem_visitsBelowAll.mpr ⟨t, List.mem_append_right _ ht, hw⟩
  found q := by
    have hright := h.found q
    rw [findSteps_cons] at hright ⊢
    rw [findChild_append, hnone, Option.none_or]
    exact hright

end Search

end Relations

namespace Resolver

open Relations

variable {r : Resolver}

/-- A run over fields below a table, from a supply on, sets up these places for one of the fields or of those
below them, and comes to it by these names. -/
inductive SetsUp (r : Resolver) (f : Field) (places : List Relation) : List String → Table → String →
    List ProjectedColumn → Supply → List FieldTree → Prop where
  | here {table target : Table} {aliasName targetAlias : String} {columns : List ProjectedColumn}
      {u between : Supply} {kids rest : List FieldTree} :
    r.Opens table aliasName u f places target targetAlias between →
      SetsUp r f places [f.name] table aliasName columns u (.node f kids :: rest)
  | inside {field : Field} {names : List String} {table target : Table} {aliasName targetAlias : String}
      {columns : List ProjectedColumn} {u between : Supply} {kids rest : List FieldTree}
      {opened : List Relation} :
    r.Opens table aliasName u field opened target targetAlias between →
      SetsUp r f places names target targetAlias [] between kids →
        SetsUp r f places (field.name :: names) table aliasName columns u (.node field kids :: rest)
  | later {names : List String} {table : Table} {aliasName : String} {columns after : List ProjectedColumn}
      {u between : Supply} {t : FieldTree} {rest : List FieldTree} {trees : List RelationTree} :
    (r.resolveField table aliasName columns t).run u = .ok ((after, trees), between) →
      SetsUp r f places names table aliasName after between rest →
        SetsUp r f places names table aliasName columns u (t :: rest)

/-- Resolving an output creates the root for the output itself, and for the fields below it the places that
its run sets up. -/
inductive Creates (r : Resolver) (table : Table) : FieldTree → Field → List Relation → Prop where
  | root {field : Field} {kids : List FieldTree} :
    Creates r table (.node field kids) field [(Relations.ofTable table).root]
  | inside {field f : Field} {kids : List FieldTree} {names : List String} {places : List Relation} :
    r.SetsUp f places names table (Relations.ofTable table).root.aliasName []
      (Relations.ofTable table).supply kids → Creates r table (.node field kids) f places

section Trace

variable {table target target' : Table} {aliasName targetAlias targetAlias' : String} {f field : Field}
  {places places' : List Relation} {names : List String} {columns : List ProjectedColumn}
  {u between between' : Supply} {ts : List FieldTree}

/-- What a field opens is settled by where it stands. -/
theorem Opens.unique (h : r.Opens table aliasName u field places target targetAlias between)
    (h' : r.Opens table aliasName u field places' target' targetAlias' between') :
    places = places' ∧ target = target' ∧ targetAlias = targetAlias' ∧ between = between' := by
  obtain ⟨_, ⟨steps, hsteps, hplaces, rfl⟩, rfl⟩ := h
  obtain ⟨_, ⟨steps', hsteps', hplaces', rfl⟩, rfl⟩ := h'
  cases hsteps.symm.trans hsteps'
  cases hplaces.symm.trans hplaces'
  exact ⟨rfl, rfl, rfl, rfl⟩

/-- The first name is that of one of the fields of the run. -/
theorem SetsUp.head (h : r.SetsUp f places names table aliasName columns u ts) :
    ∃ t ∈ ts, ∃ rest, names = t.label.name :: rest := by
  induction h with
  | here _ => exact ⟨_, List.mem_cons_self, [], rfl⟩
  | inside _ _ _ => exact ⟨_, List.mem_cons_self, _, rfl⟩
  | later _ _ ih =>
    obtain ⟨t, ht, rest, hnames⟩ := ih
    exact ⟨t, List.mem_cons_of_mem _ ht, rest, hnames⟩

/-- The names are those of the field's path, from where the run began. -/
theorem SetsUp.path (h : r.SetsUp f places names table aliasName columns u ts) :
    ∀ {path : Path}, FieldTree.RootedAll path ts → f.path.steps = path.steps ++ names := by
  induction h with
  | here _ =>
    intro path hrooted
    rw [hrooted.1.1]
    rfl
  | @inside field names _ _ _ _ _ _ _ _ _ _ _ _ ih =>
    intro path hrooted
    have hpath := ih hrooted.1.2
    rw [hpath, Path.join, List.append_assoc]
    rfl
  | later _ _ ih => exact fun hrooted => ih hrooted.2

/-- However the trees of a run have grown, a step that is the name of its first field passes the junctions and
hops of the field and comes to its place, below which the trees of the fields further down have grown. -/
theorem Opens.leads {kids rest : List FieldTree} {u' : Supply}
    {result : List ProjectedColumn × List RelationTree} {grown : List RelationTree} {step : String}
    (h : r.Opens table aliasName u field places target targetAlias between)
    (hrun : (r.resolveFields table aliasName columns (.node field kids :: rest)).run u = .ok (result, u'))
    (hgrown : WidenedAll result.2 grown) (hstep : sameName step field.name = true) :
    ∃ passed node first more before found, places = passed ++ [node] ∧
      (∀ q ∈ passed, q.isTransparent = true) ∧ node.isTransparent = false ∧ grown = first :: more ∧
      PassesTo step first before found ∧ List.Forall₂ Relation.Extends passed before ∧
      node.Extends found.label ∧ ∃ own below after,
        (r.resolveFields target targetAlias [] kids).run between = .ok ((own, below), after) ∧
          WidenedAll below found.children := by
  simp only [resolveFields, run_bind_ok, run_pure_ok] at hrun
  obtain ⟨⟨_, trees⟩, _, hfirst, ⟨_, others⟩, _, _, rfl, rfl⟩ := hrun
  rcases resolveField_cases hfirst with ⟨hnone, _⟩ | ⟨_, _, _, _, own, below, hopens, hbelow, hnested⟩
  · exact absurd h.placed hnone
  · obtain ⟨rfl, rfl, rfl, rfl⟩ := h.unique hopens
    obtain ⟨passed, node, rfl, hpassed, hshown, hbare, hnames⟩ := h.way
    have hname : sameName node.name step = true := by
      rw [hnames node (List.mem_append_right _ (List.mem_singleton.mpr rfl)), sameName_comm]
      exact hstep
    have hfront : WidenedAll (nested own below (passed ++ [node])) grown := hnested ▸ hgrown.left
    obtain ⟨first, more, before, ⟨found, kids⟩, rfl, hpasses, hbefore, hsame⟩ :=
      passesTo_nested hpassed hshown hname hfront
    have hcolumns : node.columns.map ProjectedColumn.shown <+: own.map ProjectedColumn.shown := by
      rw [hbare]
      exact List.nil_prefix
    have hplain : node.Extends { node with columns := own } :=
      { Relation.Extends.refl node with columns := hcolumns }
    exact ⟨passed, node, first, more, before, _, rfl, hpassed, hshown, rfl, hpasses, hbefore,
      hplain.trans hsame.label, own, below, _, hbelow, hsame.2⟩

/-- However the trees of a run have grown, the names of a field lead to the last of the places that the run
set up for it. -/
theorem SetsUp.found (h : r.SetsUp f places names table aliasName columns u ts) :
    ∀ (above : List Relation) {fields : List Field} {u' : Supply}
      {result : List ProjectedColumn × List RelationTree} {grown : List RelationTree} {steps : List String},
      FieldTree.DifferBelow fields ts →
      (r.resolveFields table aliasName columns ts).run u = .ok (result, u') →
      WidenedAll result.2 grown → (∀ tree ∈ grown, tree.Edges Relation.Veils) → SameSteps steps names →
        ∃ passed node w, places = passed ++ [node] ∧ FoundBelow above grown steps passed node w := by
  -- Along the run: the field is the first one, stands below the first one, or comes after it.
  induction h with
  | here hopens =>
    intro above fields u' result grown steps _ hrun hgrown _ hsteps
    cases hsteps with
    | @cons step _ _ _ hstep hnil =>
      cases hnil
      obtain ⟨passed, node, first, more, before, found, hplaces, hpassed, hshown, rfl, hpasses, hbefore,
        hsame, _⟩ := hopens.leads hrun hgrown hstep
      obtain ⟨w, hw⟩ : ∃ w, FoundBelow above (first :: more) [step] passed node w :=
        FoundBelow.here hpassed hshown hpasses hbefore hsame
      exact ⟨passed, node, w, hplaces, hw⟩
  | inside hopens _ ih =>
    intro above fields u' result grown steps hdiffer hrun hgrown hveiled hsteps
    cases hsteps with
    | @cons step _ steps _ hstep hrest =>
      obtain ⟨_, _, first, more, before, ⟨r', trees⟩, _, _, _, rfl, hpasses, _, _, own, below, after, hbelow,
        hwidened⟩ := hopens.leads hrun hgrown hstep
      have hedges := hpasses.edges (hveiled first List.mem_cons_self)
      rw [Tree.Edges, Tree.edgesBelow_iff] at hedges
      obtain ⟨passed, node, w, hplaces, hfound⟩ := ih (r' :: (before.reverse ++ above)) hdiffer.cons.2.1
        hbelow hwidened (fun kid hkid => (hedges kid hkid).2) hrest
      exact ⟨passed, node, w, hplaces, hfound.below hpasses⟩
  | @later names table aliasName columns after u between t rest trees hfirst hrest ih =>
    intro above fields u' result grown steps hdiffer hrun hgrown hveiled hsteps
    simp only [resolveFields, run_bind_ok, run_pure_ok] at hrun
    obtain ⟨⟨_, first⟩, _, hfirst', ⟨_, others⟩, _, hothers, rfl, rfl⟩ := hrun
    cases hfirst.symm.trans hfirst'
    obtain ⟨left, right, rfl, hleft, hright⟩ := hgrown.split
    rw [List.forall_mem_append] at hveiled
    obtain ⟨field, kids⟩ := t
    obtain ⟨hother, _, hdifferRest⟩ := hdiffer.cons
    obtain ⟨s, hs, more, rfl⟩ := hrest.head
    obtain ⟨passed, node, w, hplaces, hfound⟩ := ih above hdifferRest hothers hright hveiled.2 hsteps
    cases hsteps with
    | @cons step _ steps _ hstep _ =>
      refine ⟨passed, node, w, hplaces, hfound.later (findChild_eq_none_of_veiled left fun tree htree => ?_)⟩
      refine ⟨hveiled.1 tree htree, ?_⟩
      obtain ⟨before, hbefore, hsame⟩ := mem_left_of_forall₂ hleft htree
      have htop := (resolveField_veiled _ hfirst before hbefore).1
      rw [hsame.label.name, htop, sameName_iff.mp hstep]
      exact hother s hs

end Trace

section Runs

/-- A field with a shape that neither itself nor through a field above is excluded or cyclic. -/
def Reached (v : Tree.Visit Field) : Prop :=
  v.label.isScalar = false ∧ ∀ f ∈ v.lineage, f.directives.exclude = false ∧ f.cyclic = false

instance (v : Tree.Visit Field) : Decidable (Reached v) :=
  inferInstanceAs (Decidable (v.label.isScalar = false ∧
    ∀ f ∈ v.lineage, f.directives.exclude = false ∧ f.cyclic = false))

mutual

theorem resolveField_setsUp : ∀ (t : FieldTree) {above : List Field} {table : Table} {aliasName : String}
    {columns : List ProjectedColumn} {u u' : Supply} {result : List ProjectedColumn × List RelationTree},
    (∀ v ∈ t.visitsBelow above, v.label.isScalar = true → v.children = []) →
    (r.resolveField table aliasName columns t).run u = .ok (result, u') →
      ∀ v ∈ t.visitsBelow above, Reached v → ∀ rest, ∃ places names,
        r.SetsUp v.label places names table aliasName columns u (t :: rest)
  | .node field kids, above, table, aliasName, columns, u, u', result, hclosed, hrun => by
    intro v hv hreached rest
    rw [Tree.visitsBelow] at hv hclosed
    rw [List.forall_mem_cons] at hclosed
    rcases List.mem_cons.mp hv with rfl | hmem
    · have hshown := hreached.2 field List.mem_cons_self
      have hplace : field.HasPlace := ⟨hshown.1, hreached.1, hshown.2⟩
      rcases resolveField_cases hrun with ⟨hnone, _⟩ | ⟨places, _, _, _, _, _, hopens, _⟩
      · exact absurd hplace hnone
      · exact ⟨places, [field.name], .here hopens⟩
    · have habove : field ∈ v.lineage :=
        List.mem_cons_of_mem _
          (Tree.mem_ancestors_of_visitsBelowAll kids v hmem field List.mem_cons_self)
      have hshape : field.isScalar = false := by
        rw [Bool.eq_false_iff]
        intro hscalar
        rw [List.map_eq_nil_iff.mp (hclosed.1 hscalar)] at hmem
        cases hmem
      have hshown := hreached.2 field habove
      have hplace : field.HasPlace := ⟨hshown.1, hshape, hshown.2⟩
      rcases resolveField_cases hrun with ⟨hnone, _⟩ | ⟨_, _, _, _, _, _, hopens, hbelow, _⟩
      · exact absurd hplace hnone
      · obtain ⟨places, names, hsets⟩ := resolveFields_setsUp kids hclosed.2 hbelow v hmem hreached
        exact ⟨places, field.name :: names, .inside hopens hsets⟩

theorem resolveFields_setsUp : ∀ (ts : List FieldTree) {above : List Field} {table : Table}
    {aliasName : String} {columns : List ProjectedColumn} {u u' : Supply}
    {result : List ProjectedColumn × List RelationTree},
    (∀ v ∈ Tree.visitsBelowAll above ts, v.label.isScalar = true → v.children = []) →
    (r.resolveFields table aliasName columns ts).run u = .ok (result, u') →
      ∀ v ∈ Tree.visitsBelowAll above ts, Reached v → ∃ places names,
        r.SetsUp v.label places names table aliasName columns u ts
  | [], _, _, _, _, _, _, _, _, _ => fun _ hv => absurd hv List.not_mem_nil
  | t :: ts, above, table, aliasName, columns, u, u', result, hclosed, hrun => by
    intro v hv hreached
    rw [Tree.visitsBelowAll] at hv hclosed
    rw [List.forall_mem_append] at hclosed
    simp only [resolveFields, run_bind_ok, run_pure_ok] at hrun
    obtain ⟨⟨_, first⟩, _, hfirst, ⟨_, others⟩, _, hothers, rfl, rfl⟩ := hrun
    rcases List.mem_append.mp hv with hleft | hright
    · exact resolveField_setsUp t hclosed.1 hfirst v hleft hreached ts
    · obtain ⟨places, names, hsets⟩ := resolveFields_setsUp ts hclosed.2 hothers v hright hreached
      exact ⟨places, names, .later hfirst hsets⟩

end

end Runs

end Resolver

namespace Relations

/-- The search for a path comes to the place of a number, as it has grown, and not to one of the junctions
and hops in front of it, which it passes. -/
structure FindsPlace (relations : Relations) (path : Path) (passed : List Relation) (node : Relation)
    (w : Tree.Visit Relation) : Prop extends StandsBehind passed node w where
  found : relations.find? path = some w.label
  visit : relations.visit? node.id = some w

theorem Given.mergeAll {own : Relations} (h : own.Given) (others : List Relations) :
    (own.mergeAll others).Given := by
  induction others generalizing own with
  | nil => exact h
  | cons other others ih => exact ih (h.merge other)

variable {relations : Relations} {passed : List Relation} {node : Relation} {w : Tree.Visit Relation}

/-- What is found below the root is found by its path. -/
theorem FoundBelow.findsPlace {path : Path} (hgiven : relations.Given)
    (h : FoundBelow [relations.root] relations.tree.children path.steps passed node w) :
    relations.FindsPlace path passed node w := by
  obtain ⟨⟨root, kids⟩, supply⟩ := relations
  refine ⟨h.toStandsBehind, h.found root, ?_⟩
  rw [← h.same.id]
  exact hgiven.visit?_id (List.mem_cons_of_mem _ h.visit)

/-- The root is found by the path of no steps. -/
theorem findsPlace_root (hgiven : relations.Given) (hshown : node.isTransparent = false)
    (hsame : node.Extends relations.root) : ∃ w, relations.FindsPlace ⟨[]⟩ [] node w := by
  obtain ⟨⟨root, kids⟩, supply⟩ := relations
  refine ⟨⟨root, [], kids.map Tree.label⟩,
    ⟨List.forall_mem_nil _, hshown, hsame, [], [], rfl, .nil⟩, rfl, ?_⟩
  rw [← hsame.id]
  exact hgiven.visit?_id List.mem_cons_self

end Relations

namespace Resolver

open Relations

variable {r : Resolver} {table : Table} {output : FieldTree} {own : Relations} {extras : List Relations}

/-- Resolved relations are what the run over the fields makes, with the keys anchored. -/
theorem resolve_grown (h : r.resolve table output = .ok own) : ∃ columns kids supply,
    (r.resolveFields table (Relations.ofTable table).root.aliasName [] output.children).run
        (Relations.ofTable table).supply = .ok ((columns, kids), supply) ∧
      Widened (.node { (Relations.ofTable table).root with columns } kids) own.tree := by
  obtain ⟨⟨⟨columns, kids⟩, supply⟩, hrun, hresolved⟩ := except_bind_ok.mp h
  cases hresolved
  exact ⟨columns, kids, supply, hrun, widened_anchorKeys r.schema _⟩

/-- The path of a field leads to the last of the places that were created for it. -/
theorem Creates.found {f : Field} {places : List Relation} {path : Path}
    (hrooted : output.Rooted .root) (hdiffer : output.NamesDiffer)
    (hown : r.resolve table output = .ok own) (hextras : ∀ extra ∈ extras, extra.Veiled)
    (hcreates : r.Creates table output f places) (hpath : SameSteps path.steps f.path.steps) :
    ∃ passed node w, places = passed ++ [node] ∧ (own.mergeAll extras).FindsPlace path passed node w := by
  have hgiven : (own.mergeAll extras).Given := (resolve_given hown).mergeAll extras
  have hveiled : (own.mergeAll extras).Veiled := (resolve_veiled hown).mergeAll hextras
  obtain ⟨columns, kids, supply, hrun, hresolved⟩ := resolve_grown hown
  have hgrown := hresolved.trans (mergeAll_widened own extras)
  generalize own.mergeAll extras = relations at hgiven hveiled hgrown ⊢
  cases hcreates with
  | root =>
    rw [hrooted.1] at hpath
    obtain ⟨steps⟩ := path
    cases hpath
    have hplain : (Relations.ofTable table).root.Extends { (Relations.ofTable table).root with columns } :=
      { Relation.Extends.refl (Relations.ofTable table).root with columns := List.nil_prefix }
    obtain ⟨w, hw⟩ := findsPlace_root hgiven rfl (hplain.trans hgrown.label)
    exact ⟨[], _, w, rfl, hw⟩
  | @inside field _ fields names _ hsets =>
    have hnames : f.path.steps = names := hsets.path hrooted.2
    rw [hnames] at hpath
    obtain ⟨⟨root, trees⟩, after⟩ := relations
    have hedges := Tree.edgesBelow_iff.mp hveiled.tree
    obtain ⟨passed, node, w, hplaces, hfound⟩ := hsets.found [root] hdiffer.below hrun hgrown.2
      (fun kid hkid => (hedges kid hkid).2) hpath
    exact ⟨passed, node, w, hplaces, hfound.findsPlace hgiven⟩

/-- The relations of an output whose fields differ in name beside each other, up to case, have a place for
each field with a shape that is shown with all fields above it, and the path of the field in any letter case
finds it there: past the junctions and hops that were set up in front of it, and however many relations along
paths have been merged in. -/
theorem finds_created {name : String} {type : FieldType} {shapes : Shapes}
    (houtput : FieldTree.ofType name type shapes = .ok output) (hdiffer : output.NamesDiffer)
    (hown : r.resolve table output = .ok own)
    (hextras : ∀ extra ∈ extras, ∃ r' table' path, resolvePath r' table' path = .ok extra) :
    ∀ v ∈ output.visits, Reached v → (∃ places, r.Creates table output v.label places) ∧
      ∀ places, r.Creates table output v.label places →
        ∀ path : Path, SameSteps path.steps v.label.path.steps →
          ∃ passed node w, places = passed ++ [node] ∧
            (own.mergeAll extras).FindsPlace path passed node w := by
  have hrooted : output.Rooted .root := FieldTree.ofType_rooted houtput
  have hveiled : ∀ extra ∈ extras, extra.Veiled := by
    intro extra hextra
    obtain ⟨_, _, _, hresolved⟩ := hextras extra hextra
    exact resolvePath_veiled hresolved
  intro v hv hreached
  refine ⟨?_, fun places hcreates path hpath => hcreates.found hrooted hdiffer hown hveiled hpath⟩
  obtain ⟨columns, kids, supply, hrun, _⟩ := resolve_grown hown
  have hclosed := FieldTree.ofType_closed houtput
  obtain ⟨field, fields⟩ := output
  rw [Tree.visits, Tree.visitsBelow] at hv hclosed
  rcases List.mem_cons.mp hv with rfl | hbelow
  · exact ⟨_, .root⟩
  · rw [List.forall_mem_cons] at hclosed
    obtain ⟨places, names, hsets⟩ := resolveFields_setsUp fields hclosed.2 hrun v hbelow hreached
    exact ⟨places, .inside hsets⟩

/-- People with their tags, which are paired with them by a table in between. -/
def tagListShapes : Shapes := .ofList [
  ⟨"Person", none, [⟨"Tag", .list (.shape "Tag"), false, default⟩]⟩,
  ⟨"Tag", none, [⟨"Id", .i32, false, default⟩]⟩]

/-- Tags are found past the table in between, under a name in other letters, after the path to their people
has been merged in. -/
theorem finds_created_tagging : ∃ schema table output own extra v places passed node w,
    Schema.build Link.taggingDeclarations = .ok schema ∧ schema.findTable "Person" = some table ∧
      FieldTree.ofType "" (.shape "Person") tagListShapes = .ok output ∧
      resolve ⟨schema, .exact, .warn⟩ table output = .ok own ∧
      resolvePath ⟨schema, .exact, .warn⟩ table ⟨["TAG", "Person"]⟩ = .ok extra ∧
      v ∈ output.visits ∧ v.label.path = ⟨["Tag"]⟩ ∧ Reached v ∧
      Creates ⟨schema, .exact, .warn⟩ table output v.label places ∧ places = passed ++ [node] ∧
      (own.mergeAll [extra]).FindsPlace ⟨["tAg"]⟩ passed node w ∧ w.label.aliasName = "Tag" ∧
      (own.mergeAll [extra]).all.length = 5 := by
  have htest : ((Schema.build Link.taggingDeclarations).toOption.any fun schema =>
      (schema.findTable "Person").any fun table =>
        (FieldTree.ofType "" (.shape "Person") tagListShapes).toOption.any fun output =>
          (resolve ⟨schema, .exact, .warn⟩ table output).toOption.any fun own =>
            (resolvePath ⟨schema, .exact, .warn⟩ table ⟨["TAG", "Person"]⟩).toOption.any fun extra =>
              decide output.NamesDiffer &&
              decide (((own.mergeAll [extra]).find? ⟨["tAg"]⟩).map Relation.aliasName = some "Tag" ∧
                (own.mergeAll [extra]).all.length = 5) &&
              output.visits.any fun v => decide (v.label.path = ⟨["Tag"]⟩ ∧ Reached v)) = true := by
    decide +kernel
  obtain ⟨schema, hschema, htest⟩ := exists_ok_of_any htest
  obtain ⟨table, htable, htest⟩ := (Option.any_eq_true _ _).mp htest
  obtain ⟨output, houtput, htest⟩ := exists_ok_of_any htest
  obtain ⟨own, hown, htest⟩ := exists_ok_of_any htest
  obtain ⟨extra, hextra, htest⟩ := exists_ok_of_any htest
  simp only [Bool.and_eq_true, decide_eq_true_eq, List.any_eq_true] at htest
  obtain ⟨⟨hdiffer, halias, hlength⟩, v, hv, hpath, hreached⟩ := htest
  have hextras : ∀ other ∈ [extra], ∃ r' table' path, resolvePath r' table' path = .ok other :=
    List.forall_mem_singleton.mpr ⟨_, table, _, hextra⟩
  obtain ⟨⟨places, hcreates⟩, hfinds⟩ := finds_created houtput hdiffer hown hextras v hv hreached
  have hsteps : SameSteps ["tAg"] v.label.path.steps := by
    rw [hpath]
    decide
  obtain ⟨passed, node, w, hplaces, hfound⟩ := hfinds places hcreates ⟨["tAg"]⟩ hsteps
  rw [hfound.found, Option.map_some, Option.some.injEq] at halias
  exact ⟨schema, table, output, own, extra, v, places, passed, node, w, hschema, htable, houtput, hown,
    hextra, hv, hpath, hreached, hcreates, hplaces, hfound, halias, hlength⟩

end Resolver

end ShapeSql
