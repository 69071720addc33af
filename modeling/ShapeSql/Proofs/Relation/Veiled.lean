import ShapeSql.Proofs.Relation.Anchored

namespace ShapeSql

/-- Below a junction or hop stands a place of its name, up to case. -/
def Relation.Veils (above below : Relation) : Prop :=
  above.isTransparent = true → lowerAscii below.name = lowerAscii above.name

theorem Relation.Veils.of_same {a a' b b' : Relation} (h : a.Veils b) (hkind : a'.kind = a.kind)
    (habove : a'.name = a.name) (hbelow : b'.name = b.name) : a'.Veils b' := by
  rw [Veils, isTransparent_of_kind hkind, habove, hbelow]
  exact h

/-- A place with a table of its own or an embedded one veils nothing. -/
theorem Relation.veils_of_shown {a b : Relation} (h : a.isTransparent = false) : a.Veils b :=
  fun hpassed => Bool.noConfusion (h.symm.trans hpassed)

/-- One place stands in for another: if it is a junction or hop, so is the other, of its name up to case. -/
def Relation.StandsIn (own other : Relation) : Prop :=
  own.isTransparent = true → other.isTransparent = true ∧ lowerAscii other.name = lowerAscii own.name

theorem Relation.StandsIn.veils {own other below : Relation} (h : own.StandsIn other)
    (hveils : other.Veils below) : own.Veils below := by
  intro hpassed
  obtain ⟨hother, hname⟩ := h hpassed
  exact (hveils hother).trans hname

theorem sameName_iff {left right : String} :
    sameName left right = true ↔ lowerAscii left = lowerAscii right := by
  rw [sameName, beq_iff_eq]

theorem Relations.standsIn_of_matching {own other : Relation} (h : matching own other = true) :
    own.StandsIn other := by
  obtain ⟨_, hkind, hname⟩ := matching_iff.mp h
  intro hpassed
  exact ⟨(Relation.isTransparent_of_kind hkind).symm.trans hpassed, (sameName_iff.mp hname).symm⟩

namespace Relations

section Search

variable {name : String}

mutual

/-- A tree shows nothing of another name than that of its topmost place. -/
theorem findShown_eq_none : ∀ (t : RelationTree), t.Edges Relation.Veils →
    lowerAscii t.label.name ≠ lowerAscii name → findShown name t = none
  | .node r kids, hveiled, hother => by
    rw [Tree.Edges, Tree.edgesBelow_iff] at hveiled
    have hother : lowerAscii r.name ≠ lowerAscii name := hother
    rw [findShown]
    cases hpassed : r.isTransparent with
    | true =>
      rw [if_pos rfl]
      refine findChild_eq_none_of_veiled kids fun kid hkid => ⟨(hveiled kid hkid).2, ?_⟩
      rw [(hveiled kid hkid).1 hpassed]
      exact hother
    | false => rw [if_neg Bool.false_ne_true, if_neg (mt sameName_iff.mp hother)]

theorem findChild_eq_none_of_veiled : ∀ (ts : List RelationTree),
    (∀ t ∈ ts, t.Edges Relation.Veils ∧ lowerAscii t.label.name ≠ lowerAscii name) →
      findChild name ts = none
  | [], _ => rfl
  | t :: ts, h => by
    rw [List.forall_mem_cons] at h
    rw [findChild, findShown_eq_none t h.1.1 h.1.2]
    exact findChild_eq_none_of_veiled ts h.2

end

/-- A search by name in a tree passes these places, each the first one below the place before, and comes to
the tree of a place that is shown. -/
inductive PassesTo (name : String) : RelationTree → List Relation → RelationTree → Prop where
  | place {r : Relation} {kids : List RelationTree} :
    r.isTransparent = false → sameName r.name name = true → PassesTo name (.node r kids) [] (.node r kids)
  | through {r : Relation} {first found : RelationTree} {rest : List RelationTree}
      {passed : List Relation} : r.isTransparent = true → PassesTo name first passed found →
    PassesTo name (.node r (first :: rest)) (r :: passed) found

variable {tree found : RelationTree} {passed : List Relation}

theorem PassesTo.findShown (h : PassesTo name tree passed found) :
    Relations.findShown name tree = some found := by
  induction h with
  | place hshown hname =>
    rw [Relations.findShown, if_neg (Bool.eq_false_iff.mp hshown), if_pos hname]
  | through hpassed _ ih => rw [Relations.findShown, if_pos hpassed, findChild, ih]

theorem PassesTo.findChild (h : PassesTo name tree passed found) (rest : List RelationTree) :
    Relations.findChild name (tree :: rest) = some found := by
  rw [Relations.findChild, h.findShown]

/-- The places that were passed stand right in front of what was found. -/
theorem PassesTo.visits (h : PassesTo name tree passed found) : ∀ above,
    ∀ v ∈ found.visitsBelow (passed.reverse ++ above), v ∈ tree.visitsBelow above := by
  induction h with
  | place _ _ => exact fun above v hv => hv
  | @through r first found rest passed _ _ ih =>
    intro above v hv
    rw [List.reverse_cons, List.append_assoc, List.singleton_append] at hv
    rw [Tree.visitsBelow, Tree.visitsBelowAll]
    exact List.mem_cons_of_mem _ (List.mem_append_left _ (ih (r :: above) v hv))

theorem PassesTo.edges {R : Relation → Relation → Prop} (h : PassesTo name tree passed found)
    (hedges : tree.Edges R) : found.Edges R := by
  induction h with
  | place _ _ => exact hedges
  | through _ _ ih => exact ih hedges.1.2

end Search

section Growth

variable {name : String} {columns : List ProjectedColumn} {kids others : List RelationTree}
  {passed : List Relation} {place : Relation}

/-- However a way of places has grown, a search for their name passes those in front and comes to the last. -/
theorem passesTo_nested (hpassed : ∀ q ∈ passed, q.isTransparent = true)
    (hplace : place.isTransparent = false) (hname : sameName place.name name = true)
    (h : WidenedAll (nested columns kids (passed ++ [place])) others) :
    ∃ first rest between found, others = first :: rest ∧ PassesTo name first between found ∧
      List.Forall₂ Relation.Extends passed between ∧
        Widened (.node { place with columns } kids) found := by
  induction passed generalizing others with
  | nil =>
    obtain ⟨⟨r, below⟩, rest, rfl, hgrown, _⟩ := h
    have hshown : r.isTransparent = false :=
      (Relation.isTransparent_of_kind hgrown.1.kind).trans hplace
    have hsame : sameName r.name name = true := by
      rw [show r.name = place.name from hgrown.1.name]
      exact hname
    exact ⟨_, rest, [], _, rfl, .place hshown hsame, .nil, hgrown⟩
  | cons q passed ih =>
    rw [List.forall_mem_cons] at hpassed
    rw [List.cons_append, nested_cons columns kids q (List.append_ne_nil_of_right_ne_nil _
      (List.cons_ne_nil _ _))] at h
    obtain ⟨⟨r, below⟩, rest, rfl, ⟨hextends, hbelow⟩, _⟩ := h
    obtain ⟨first, more, between, found, rfl, hpasses, hbetween, hgrown⟩ := ih hpassed.2 hbelow
    have hhidden : r.isTransparent = true :=
      (Relation.isTransparent_of_kind hextends.kind).trans hpassed.1
    exact ⟨_, rest, r :: between, found, rfl, .through hhidden hpasses, .cons hextends hbetween, hgrown⟩

end Growth

section Merge

variable {q q' : Relation} {ts : List RelationTree}

theorem edgesBelow_of_same (hkind : q'.kind = q.kind) (hname : q'.name = q.name)
    (h : Tree.EdgesBelow Relation.Veils q ts) : Tree.EdgesBelow Relation.Veils q' ts := by
  rw [Tree.edgesBelow_iff] at h ⊢
  exact fun t ht => ⟨(h t ht).1.of_same hkind hname rfl, (h t ht).2⟩

mutual

theorem copyTree_veiled : ∀ (t : RelationTree) (parentAlias : String) (u : Supply),
    t.Edges Relation.Veils → (copyTree parentAlias t u).1.label.name = t.label.name ∧
      (copyTree parentAlias t u).1.Edges Relation.Veils
  | .node r kids, parentAlias, u, h => by
    rw [Tree.Edges] at h
    rw [copyTree]
    have hcopies := copyTrees_veiled kids
      (u.relation r.table r.name r.path r.join r.kind
        (if r.isEmbedded then none else some r.aliasName) parentAlias).1.aliasName
      (u.relation r.table r.name r.path r.join r.kind
        (if r.isEmbedded then none else some r.aliasName) parentAlias).2 h
    exact ⟨u.name_relation .., edgesBelow_of_same (u.path_relation ..).2.1 (u.name_relation ..) hcopies⟩

theorem copyTrees_veiled : ∀ (ts : List RelationTree) (parentAlias : String) (u : Supply) {q : Relation},
    Tree.EdgesBelow Relation.Veils q ts →
      Tree.EdgesBelow Relation.Veils q (copyTrees parentAlias ts u).1
  | [], _, _, _, _ => trivial
  | t :: ts, parentAlias, u, q, h => by
    obtain ⟨htop, hcopy⟩ := copyTree_veiled t parentAlias u h.1.2
    rw [copyTrees]
    exact ⟨⟨h.1.1.of_same rfl rfl htop, hcopy⟩, copyTrees_veiled ts parentAlias _ h.2⟩

end

mutual

/-- Merging a tree into one whose topmost place stands in for its own keeps names behind those in front. -/
theorem mergeTree_veiled : ∀ (other own : RelationTree) (u : Supply), own.label.StandsIn other.label →
    own.Edges Relation.Veils → other.Edges Relation.Veils →
      (mergeTree own other u).value.Edges Relation.Veils
  | .node r kids, .node label children, u, hin, hown, hother => by
    rw [Tree.Edges] at hown hother
    rw [mergeTree, Tree.Edges]
    have hmerged := mergeTrees_veiled kids label.aliasName children u hin hown hother
    exact edgesBelow_of_same (q := label) rfl rfl hmerged

theorem mergeTrees_veiled : ∀ (others : List RelationTree) (parentAlias : String)
    (own : List RelationTree) (u : Supply) {q r : Relation}, q.StandsIn r →
    Tree.EdgesBelow Relation.Veils q own → Tree.EdgesBelow Relation.Veils r others →
      Tree.EdgesBelow Relation.Veils q (mergeTrees parentAlias own others u).value
  | [], _, _, _, _, _, _, hown, _ => hown
  | t :: ts, parentAlias, own, u, q, r, hin, hown, hothers => by
    have hbelow : q.Veils t.label := hin.veils hothers.1.1
    rw [Tree.edgesBelow_iff] at hown
    rcases mergeTrees_cons parentAlias own t ts u with ⟨_, h⟩ |
      ⟨before, label, children, behind, rfl, hmatching, ⟨_, h⟩ | ⟨join, _, hplaced⟩⟩
    · rw [h]
      obtain ⟨htop, hcopy⟩ := copyTree_veiled t parentAlias u hothers.1.2
      refine mergeTrees_veiled ts parentAlias _ _ hin (Tree.edgesBelow_iff.mpr ?_) hothers.2
      rw [List.forall_mem_append, List.forall_mem_singleton]
      exact ⟨hown, hbelow.of_same rfl rfl htop, hcopy⟩
    · rw [h]
      exact Tree.edgesBelow_iff.mpr hown
    · rw [List.forall_mem_append, List.forall_mem_cons] at hown
      obtain ⟨hbefore, ⟨hpresent, hchildren⟩, hbehind⟩ := hown
      have hstands : Relation.StandsIn label t.label := standsIn_of_matching hmatching
      have hmerged := mergeTree_veiled t (.node { label with join } children) u hstands
        (edgesBelow_of_same (q := label) rfl rfl hchildren) hothers.1.2
      have hset : Tree.EdgesBelow Relation.Veils q
          (before ++ (mergeTree (.node { label with join } children) t u).value :: behind) := by
        rw [Tree.edgesBelow_iff, List.forall_mem_append, List.forall_mem_cons]
        exact ⟨hbefore, ⟨hpresent.of_same rfl rfl (name_mergeTree _ t u), hmerged⟩, hbehind⟩
      rcases hplaced with ⟨_, _, h⟩ | ⟨_, h⟩
      · rw [h]
        exact hset
      · rw [h]
        exact mergeTrees_veiled ts parentAlias _ _ hin hset hothers.2

end

/-- Relations whose root is shown, and where names stand behind those in front. -/
structure Veiled (relations : Relations) : Prop where
  root : relations.root.isTransparent = false
  tree : relations.tree.Edges Relation.Veils

theorem Veiled.anchorKeys {relations : Relations} (h : relations.Veiled) (s : Schema) :
    (relations.anchorKeys s).Veiled := by
  have hkept : ∀ r : Relation, (r.anchorKey s).kind = r.kind := fun r => (same_anchorKey s r).2.2.1
  constructor
  · show (relations.tree.map (Relation.anchorKey s)).label.isTransparent = false
    rw [Tree.label_map, Relation.isTransparent_of_kind (hkept _)]
    exact h.root
  · refine Tree.edges_map (Tree.Edges.mono _ (fun a b _ _ hveils => ?_) h.tree)
    exact hveils.of_same (hkept a) (a.same_anchorKey_name s) (b.same_anchorKey_name s)

theorem Veiled.merge {own other : Relations} (hown : own.Veiled) (hother : other.Veiled) :
    (own.merge other).value.Veiled := by
  have hin : own.tree.label.StandsIn other.tree.label :=
    fun hpassed => Bool.noConfusion (hown.root.symm.trans hpassed)
  have hkept : (own.merge other).value.root.kind = own.root.kind :=
    (Widened.label (merge_widened own other)).kind
  refine ⟨(Relation.isTransparent_of_kind hkept).trans hown.root, ?_⟩
  unfold Relations.merge
  split
  · exact mergeTree_veiled other.tree own.tree own.supply hin hown.tree hother.tree
  · exact hown.tree

theorem Veiled.mergeAll {own : Relations} {others : List Relations} (hown : own.Veiled)
    (hothers : ∀ other ∈ others, other.Veiled) : (own.mergeAll others).Veiled := by
  induction others generalizing own with
  | nil => exact hown
  | cons other others ih =>
    rw [List.forall_mem_cons] at hothers
    exact ih (hown.merge hothers.1) hothers.2

end Merge

end Relations

section Resolve

open Relations

variable {name : String} {kids : List RelationTree}

theorem Trail.veiled {above : Path} {names : List String} {t : RelationTree} (h : Trail above names t) :
    t.Edges Relation.Veils := by
  induction h with
  | through _ hname _ htrail ih =>
    exact ⟨⟨fun _ => by rw [htrail.name, hname], ih⟩, trivial⟩
  | last _ _ _ => trivial
  | place hshown _ _ _ ih => exact ⟨⟨Relation.veils_of_shown hshown, ih⟩, trivial⟩

/-- The places of a way to a shown one all have its name. -/
theorem nested_veiled (columns : List ProjectedColumn) {passed : List Relation} {place : Relation}
    (hnames : ∀ q ∈ passed ++ [place], q.name = name) (hplace : place.isTransparent = false)
    (hkids : ∀ kid ∈ kids, kid.Edges Relation.Veils) :
    ∃ t, nested columns kids (passed ++ [place]) = [t] ∧ t.label.name = name ∧
      t.Edges Relation.Veils := by
  induction passed with
  | nil =>
    refine ⟨_, rfl, hnames place (List.mem_singleton.mpr rfl), Tree.edgesBelow_iff.mpr fun kid hkid => ?_⟩
    exact ⟨Relation.veils_of_shown hplace, hkids kid hkid⟩
  | cons q passed ih =>
    rw [List.cons_append, List.forall_mem_cons] at hnames
    obtain ⟨t, hnested, htop, hveiled⟩ := ih hnames.2
    refine ⟨.node q [t], ?_, hnames.1, ⟨fun _ => ?_, hveiled⟩, trivial⟩
    · rw [List.cons_append, nested_cons columns kids q (List.append_ne_nil_of_right_ne_nil _
        (List.cons_ne_nil _ _)), hnested]
    · rw [htop, hnames.1]

/-- A field that is given a place: one with a shape that is neither excluded nor cyclic. -/
structure Field.HasPlace (f : Field) : Prop where
  shown : f.directives.exclude = false
  shape : f.isScalar = false
  acyclic : f.cyclic = false

namespace Resolver

variable {r : Resolver}

/-- A field below a table is given these places, and the fields below it are resolved from this target. -/
structure Opens (r : Resolver) (table : Table) (aliasName : String) (u : Supply) (field : Field)
    (places : List Relation) (target : Table) (targetAlias : String) (u' : Supply) : Prop where
  placed : field.HasPlace
  run : ∃ steps, r.stepsTo table field = .ok steps ∧
    (Resolving.setUp field.name field.path aliasName steps).run u = .ok (places, u') ∧
      target = (steps.getLast?.map Step.table).getD table
  under : targetAlias = (places.getLast?.map Relation.aliasName).getD aliasName

/-- The places of a field are junctions and hops, and at the end the place of the field itself. -/
theorem Opens.way {table target : Table} {aliasName targetAlias : String} {u u' : Supply} {field : Field}
    {places : List Relation} (h : r.Opens table aliasName u field places target targetAlias u') :
    ∃ passed place, places = passed ++ [place] ∧ (∀ q ∈ passed, q.isTransparent = true) ∧
      place.isTransparent = false ∧ place.columns = [] ∧ ∀ q ∈ places, q.name = field.name := by
  obtain ⟨steps, hsteps, hplaces, _⟩ := h.run
  obtain ⟨last, hleads, _⟩ := stepsTo_leads hsteps
  obtain ⟨passed, place, hway, hpassed, hplace, _⟩ := Resolving.setUp_leads hleads hplaces
  have hmem : place ∈ places := hway ▸ List.mem_append_right _ (List.mem_singleton.mpr rfl)
  exact ⟨passed, place, hway, hpassed, hplace, (Resolving.setUp_paths hplaces place hmem).2,
    Resolving.setUp_names hplaces⟩

/-- Resolving a field sets up its places and goes on below, or sets up nothing. -/
theorem resolveField_cases {table : Table} {aliasName : String} {columns : List ProjectedColumn}
    {field : Field} {kids : List FieldTree} {u u' : Supply}
    {result : List ProjectedColumn × List RelationTree}
    (hrun : (r.resolveField table aliasName columns (.node field kids)).run u = .ok (result, u')) :
    (¬ field.HasPlace ∧ result.2 = []) ∨
      ∃ places target targetAlias between own below,
        r.Opens table aliasName u field places target targetAlias between ∧
        (r.resolveFields target targetAlias [] kids).run between = .ok ((own, below), u') ∧
        result.2 = nested own below places := by
  cases resolves_of_resolveField hrun with
  | excluded hexcluded =>
    exact Or.inl ⟨fun hplace => Bool.noConfusion (hplace.shown.symm.trans hexcluded), rfl⟩
  | scalar _ hscalar =>
    exact Or.inl ⟨fun hplace => Bool.noConfusion (hplace.shape.symm.trans hscalar), rfl⟩
  | cyclic _ _ hcyclic =>
    exact Or.inl ⟨fun hplace => Bool.noConfusion (hplace.acyclic.symm.trans hcyclic), rfl⟩
  | places hshown hshape hacyclic hsteps hplaces hbelow =>
    exact Or.inr ⟨_, _, _, _, _, _, ⟨⟨hshown, hshape, hacyclic⟩, ⟨_, hsteps, hplaces, rfl⟩, rfl⟩,
      hbelow, rfl⟩

mutual

theorem resolveField_veiled : ∀ (t : FieldTree) {table : Table} {aliasName : String}
    {columns : List ProjectedColumn} {u u' : Supply}
    {result : List ProjectedColumn × List RelationTree},
    (r.resolveField table aliasName columns t).run u = .ok (result, u') →
      ∀ place ∈ result.2, place.label.name = t.label.name ∧ place.Edges Relation.Veils
  | .node field kids, table, aliasName, columns, u, u', result, hrun => by
    rcases resolveField_cases hrun with ⟨_, hnone⟩ | ⟨places, target, targetAlias, between, own, below,
      hopens, hbelow, hnested⟩
    · rw [hnone]
      exact List.forall_mem_nil _
    · obtain ⟨passed, place, rfl, _, hplace, _, hnames⟩ := hopens.way
      obtain ⟨t, hsole, htop, hveiled⟩ := nested_veiled own hnames hplace
        (resolveFields_veiled kids hbelow)
      rw [hnested, hsole, List.forall_mem_singleton]
      exact ⟨htop, hveiled⟩

theorem resolveFields_veiled : ∀ (ts : List FieldTree) {table : Table} {aliasName : String}
    {columns : List ProjectedColumn} {u u' : Supply}
    {result : List ProjectedColumn × List RelationTree},
    (r.resolveFields table aliasName columns ts).run u = .ok (result, u') →
      ∀ place ∈ result.2, place.Edges Relation.Veils
  | [], table, aliasName, columns, u, u', result, hrun => by
    rw [resolveFields, run_pure_ok] at hrun
    rw [← hrun.1]
    exact List.forall_mem_nil _
  | t :: ts, table, aliasName, columns, u, u', result, hrun => by
    simp only [resolveFields, run_bind_ok, run_pure_ok] at hrun
    obtain ⟨⟨_, first⟩, between, hfirst, ⟨_, others⟩, after, hothers, rfl, rfl⟩ := hrun
    rw [List.forall_mem_append]
    exact ⟨fun place hplace => (resolveField_veiled t hfirst place hplace).2,
      resolveFields_veiled ts hothers⟩

end

theorem veiled_below (table : Table) {columns : List ProjectedColumn} {kids : List RelationTree}
    (supply : Supply) (h : ∀ kid ∈ kids, kid.Edges Relation.Veils) :
    Relations.Veiled ⟨.node { (Relations.ofTable table).root with columns } kids, supply⟩ :=
  ⟨rfl, Tree.edgesBelow_iff.mpr fun kid hkid => ⟨Relation.veils_of_shown rfl, h kid hkid⟩⟩

theorem resolve_veiled {table : Table} {output : FieldTree} {relations : Relations}
    (h : r.resolve table output = .ok relations) : relations.Veiled := by
  obtain ⟨columns, kids, supply, hrun, rfl⟩ := resolve_inv h
  exact (veiled_below table supply (resolveFields_veiled output.children hrun)).anchorKeys r.schema

theorem resolvePath_veiled {table : Table} {path : Path} {relations : Relations}
    (h : r.resolvePath table path = .ok relations) : relations.Veiled := by
  obtain ⟨kids, supply, hrun, rfl⟩ := resolvePath_inv h
  have hkids : ∀ kid ∈ kids, kid.Edges Relation.Veils := by
    rcases resolveSteps_trail hrun with ⟨_, rfl⟩ | ⟨t, rfl, htrail⟩
    · exact List.forall_mem_nil _
    · exact List.forall_mem_singleton.mpr htrail.veiled
  exact (veiled_below table supply hkids).anchorKeys r.schema

end Resolver

end Resolve

end ShapeSql
