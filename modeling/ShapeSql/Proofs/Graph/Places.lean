import ShapeSql.Proofs.Graph.Levels
import ShapeSql.Proofs.Relation.Spelled

namespace ShapeSql

mutual

/-- By their paths, places lie below those around them. -/
def PathsBelow (above : Path) : RelationTree → Prop
  | .node r kids => above.steps <+: r.path.steps ∧ PathsBelowAll r.path kids

def PathsBelowAll (above : Path) : List RelationTree → Prop
  | [] => True
  | t :: ts => PathsBelow above t ∧ PathsBelowAll above ts

end

mutual

def decidablePathsBelow (above : Path) : (t : RelationTree) → Decidable (PathsBelow above t)
  | .node r kids =>
    have := decidablePathsBelowAll r.path kids
    inferInstanceAs (Decidable (_ ∧ _))

def decidablePathsBelowAll (above : Path) : (ts : List RelationTree) →
    Decidable (PathsBelowAll above ts)
  | [] => inferInstanceAs (Decidable True)
  | t :: ts =>
    have := decidablePathsBelow above t
    have := decidablePathsBelowAll above ts
    inferInstanceAs (Decidable (_ ∧ _))

end

theorem pathsBelowAll_iff {above : Path} {ts : List RelationTree} :
    PathsBelowAll above ts ↔ ∀ t ∈ ts, PathsBelow above t := by
  induction ts with
  | nil => exact ⟨fun _ => List.forall_mem_nil _, fun _ => trivial⟩
  | cons t ts ih => rw [PathsBelowAll, List.forall_mem_cons, ih]

theorem Relation.isTransparent_of_embedded (r : Relation) (h : r.isEmbedded = true) :
    r.isTransparent = false := by
  cases hkind : r.kind <;> simp [isEmbedded, isTransparent, hkind] at h ⊢

/-- The places among relations; junctions and hops are none of their own. -/
def places (rs : List Relation) : List Relation := rs.filter fun r => !r.isTransparent

/-- Places have paths of their own, below those around them. -/
structure Relations.PathsApart (relations : Relations) : Prop where
  distinct : ((places relations.all).map Relation.path).Nodup
  below : PathsBelow .root relations.tree

instance (relations : Relations) : Decidable relations.PathsApart :=
  have := decidablePathsBelow .root relations.tree
  decidable_of_iff
    (((places relations.all).map Relation.path).Nodup ∧ PathsBelow .root relations.tree)
    ⟨fun h => ⟨h.1, h.2⟩, fun h => ⟨h.distinct, h.below⟩⟩

section Spelled

variable {steps : List String}

mutual

theorem pathsBelow_of_spelled : ∀ (t : RelationTree) {above : Path}, Spelled steps above t →
    PathsBelow above t
  | .node r kids, above, ⟨hpath, _, hthrough, hplace⟩ => by
    refine ⟨hpath ▸ List.prefix_append _ _, ?_⟩
    cases htransparent : r.isTransparent with
    | false => exact pathsBelowAll_of_spelled kids (hplace htransparent).2
    | true =>
      obtain ⟨honly, hkids⟩ := hthrough htransparent
      have hbelow := pathsBelowAll_of_spelled kids hkids
      rw [pathsBelowAll_iff] at hbelow ⊢
      intro kid hkid
      obtain ⟨q, others⟩ := kid
      have hname : q.name = r.name := by
        have hmem : q.name ∈ topNames kids := List.mem_map.mpr ⟨_, hkid, rfl⟩
        rw [honly] at hmem
        exact List.mem_singleton.mp hmem
      have hsame : q.path = r.path := by
        rw [hpath, (spelledAll_iff.mp hkids _ hkid).1, hname]
      exact ⟨hsame ▸ List.prefix_rfl, (hbelow _ hkid).2⟩

theorem pathsBelowAll_of_spelled : ∀ (ts : List RelationTree) {above : Path},
    SpelledAll steps above ts → PathsBelowAll above ts
  | [], _, _ => trivial
  | t :: ts, _, ⟨ht, hts⟩ => ⟨pathsBelow_of_spelled t ht, pathsBelowAll_of_spelled ts hts⟩

end

theorem Path.eq_of_join_starts {above p : Path} {name name' : String}
    (h : (above.join name).steps <+: p.steps) (h' : (above.join name').steps <+: p.steps) :
    name = name' := by
  have hlength : (above.join name).steps.length = (above.join name').steps.length := by
    rw [Path.join, Path.join, List.length_append, List.length_append]
    rfl
  have hsame := (List.prefix_of_prefix_length_le h h' hlength.le).eq_of_length hlength
  exact List.singleton_inj.mp (List.append_cancel_left hsame)

mutual

/-- The places of a tree lie below the path of its topmost one, and have paths of their own. -/
theorem paths_of_spelled : ∀ (t : RelationTree) {above : Path}, Spelled steps above t →
    (∀ r ∈ places t.preorder, (above.join t.label.name).steps <+: r.path.steps) ∧
      ((places t.preorder).map Relation.path).Nodup
  | .node r kids, above, ⟨hpath, _, hthrough, hplace⟩ => by
    rw [Tree.preorder, places, List.filter_cons]
    cases htransparent : r.isTransparent with
    | true =>
      obtain ⟨honly, hkids⟩ := hthrough htransparent
      obtain ⟨hstarts, hdistinct⟩ := paths_of_spelledAll kids hkids (honly ▸ List.nodup_singleton _)
      refine ⟨fun q hq => ?_, hdistinct⟩
      obtain ⟨name, hname, hbelow⟩ := hstarts q hq
      rw [honly, List.mem_singleton] at hname
      exact hname ▸ hbelow
    | false =>
      obtain ⟨hnames, hkids⟩ := hplace htransparent
      obtain ⟨hstarts, hdistinct⟩ := paths_of_spelledAll kids hkids hnames
      have hbelow : ∀ q ∈ places (Tree.preorderAll kids),
          r.path.steps <+: q.path.steps ∧ q.path ≠ r.path := by
        intro q hq
        obtain ⟨name, _, hstart⟩ := hstarts q hq
        refine ⟨(List.prefix_append _ _).trans hstart, fun hsame => ?_⟩
        have hlength := hstart.length_le
        rw [hsame, Path.join, List.length_append] at hlength
        exact absurd hlength (Nat.not_succ_le_self _)
      show (∀ q ∈ r :: places (Tree.preorderAll kids), (above.join r.name).steps <+: q.path.steps) ∧
        ((r :: places (Tree.preorderAll kids)).map Relation.path).Nodup
      rw [← hpath, List.forall_mem_cons, List.map_cons, List.nodup_cons]
      refine ⟨⟨List.prefix_rfl, fun q hq => (hbelow q hq).1⟩, fun hmem => ?_, hdistinct⟩
      obtain ⟨q, hq, hsame⟩ := List.mem_map.mp hmem
      exact (hbelow q hq).2 hsame

theorem paths_of_spelledAll : ∀ (ts : List RelationTree) {above : Path}, SpelledAll steps above ts →
    (topNames ts).Nodup →
    (∀ r ∈ places (Tree.preorderAll ts), ∃ name ∈ topNames ts,
      (above.join name).steps <+: r.path.steps) ∧
      ((places (Tree.preorderAll ts)).map Relation.path).Nodup
  | [], _, _, _ => ⟨nofun, List.nodup_nil⟩
  | t :: ts, above, ⟨ht, hts⟩, hnames => by
    obtain ⟨hnew, hnames⟩ := List.nodup_cons.mp hnames
    obtain ⟨hfirst, hdistinct⟩ := paths_of_spelled t ht
    obtain ⟨hrest, hothers⟩ := paths_of_spelledAll ts hts hnames
    rw [Tree.preorderAll, places, List.filter_append, List.forall_mem_append, List.map_append,
      List.nodup_append]
    refine ⟨⟨fun r hr => ⟨t.label.name, List.mem_cons_self, hfirst r hr⟩, fun r hr => ?_⟩, hdistinct,
      hothers, ?_⟩
    · obtain ⟨name, hname, hstart⟩ := hrest r hr
      exact ⟨name, List.mem_cons_of_mem _ hname, hstart⟩
    · intro p hp p' hp' hsame
      obtain ⟨r, hr, rfl⟩ := List.mem_map.mp hp
      obtain ⟨r', hr', rfl⟩ := List.mem_map.mp hp'
      obtain ⟨name, hname, hstart⟩ := hrest r' hr'
      have hfirst := hfirst r hr
      rw [hsame] at hfirst
      have hname' : t.label.name ∈ topNames ts := by
        rw [Path.eq_of_join_starts hfirst hstart]
        exact hname
      exact hnew hname'

end

/-- Places that are told apart by their names have paths of their own. -/
theorem Relations.SpelledOut.pathsApart {relations : Relations} (h : relations.SpelledOut steps) :
    relations.PathsApart := by
  obtain ⟨⟨⟨root, kids⟩, supply⟩, hroot, hnames, hplaces⟩ := relations, h
  obtain ⟨hstarts, hdistinct⟩ := paths_of_spelledAll kids hplaces hnames
  have hroot : root.path = .root := hroot
  constructor
  · show ((places (root :: Tree.preorderAll kids)).map Relation.path).Nodup
    rw [places, List.filter_cons]
    split
    · rw [List.map_cons, List.nodup_cons]
      refine ⟨fun hmem => ?_, hdistinct⟩
      obtain ⟨r, hr, hsame⟩ := List.mem_map.mp hmem
      obtain ⟨name, _, hstart⟩ := hstarts r hr
      rw [hsame, hroot] at hstart
      exact absurd hstart.length_le (Nat.not_succ_le_zero _)
    · exact hdistinct
  · exact ⟨hroot.symm ▸ List.prefix_rfl, pathsBelowAll_of_spelled kids (hroot ▸ hplaces)⟩

end Spelled

theorem Path.eq_of_relativeTo_eq {owner p q : Path} (hp : owner.steps <+: p.steps)
    (hq : owner.steps <+: q.steps) (h : p.relativeTo owner = q.relativeTo owner) : p = q := by
  obtain ⟨owner⟩ := owner
  obtain ⟨p⟩ := p
  obtain ⟨q⟩ := q
  obtain ⟨ps, rfl⟩ := hp
  obtain ⟨qs, rfl⟩ := hq
  rw [Path.relativeTo_append, Path.relativeTo_append, Path.mk.injEq] at h
  rw [h]

/-- Among items told apart by a key, the one with a key is found by it. -/
theorem find?_of_nodup_map {α κ : Type} [BEq κ] [LawfulBEq κ] {key : α → κ} {items : List α} {a : α}
    (hdistinct : (items.map key).Nodup) (ha : a ∈ items) :
    items.find? (fun b => key b == key a) = some a := by
  obtain ⟨found, hfound⟩ : ∃ found, items.find? (fun b => key b == key a) = some found := by
    rw [← Option.isSome_iff_exists, List.find?_isSome]
    exact ⟨a, ha, beq_self_eq_true _⟩
  have hkey := List.find?_some hfound
  rw [hfound, List.inj_on_of_nodup_map hdistinct (List.mem_of_find?_eq_some hfound) ha (eq_of_beq hkey)]

namespace LevelTree

variable {s : Schema}

/-- Trees that stand at the level of these: they themselves, and what is below a junction, a hop or an
embedded place at the level. -/
inductive Joins (whole : List RelationTree) : RelationTree → Prop where
  | top {t : RelationTree} : t ∈ whole → Joins whole t
  | under {r : Relation} {kids : List RelationTree} {t : RelationTree} :
    Joins whole (.node r kids) → r.isBound = false → t ∈ kids → Joins whole t

theorem Joins.shows {whole : List RelationTree} {t shown : RelationTree} (h : Shows t shown) :
    Joins whole t → Joins whole shown := by
  induction h with
  | place _ => exact id
  | through hthrough ht _ ih =>
    intro hjoins
    apply ih
    refine .under hjoins ?_ ht
    rw [Relation.isBound, hthrough]
    rfl

theorem Joins.sublist {whole : List RelationTree} {t : RelationTree} (h : Joins whole t) :
    t.preorder.Sublist (Tree.preorderAll whole) := by
  have hkid : ∀ {ts : List RelationTree} {t : RelationTree}, t ∈ ts →
      t.preorder.Sublist (Tree.preorderAll ts) := by
    intro ts t ht
    induction ts with
    | nil => cases ht
    | cons first rest ih =>
      rcases List.mem_cons.mp ht with rfl | ht
      · exact List.sublist_append_left _ _
      · exact (ih ht).trans (List.sublist_append_right _ _)
  induction h with
  | top ht => exact hkid ht
  | under _ _ ht ih => exact ((hkid ht).trans (List.sublist_cons_self _ _)).trans ih

theorem Joins.below_path {whole : List RelationTree} {owner : Path} (hbelow : PathsBelowAll owner whole)
    {t : RelationTree} (h : Joins whole t) :
    owner.steps <+: t.label.path.steps ∧ PathsBelowAll t.label.path t.children := by
  induction h with
  | @top t ht =>
    obtain ⟨r, kids⟩ := t
    exact pathsBelowAll_iff.mp hbelow _ ht
  | @under r kids t _ _ ht ih =>
    obtain ⟨q, below⟩ := t
    obtain ⟨hpath, hkids⟩ := pathsBelowAll_iff.mp ih.2 _ ht
    exact ⟨ih.1.trans hpath, hkids⟩

/-- What stands at the level of trees is part of their share. -/
theorem Joins.share {whole : List RelationTree} (owner : Path) {t : RelationTree}
    (h : Joins whole t) :
    (∀ c ∈ (share s owner t).columns, c ∈ (shares s owner whole).columns) ∧
      ∀ l ∈ (share s owner t).levels, l ∈ (shares s owner whole).levels := by
  have hkid : ∀ {ts : List RelationTree} {t : RelationTree}, t ∈ ts →
      (∀ c ∈ (LevelTree.share s owner t).columns, c ∈ (shares s owner ts).columns) ∧
        ∀ l ∈ (LevelTree.share s owner t).levels, l ∈ (shares s owner ts).levels := by
    intro ts t ht
    induction ts with
    | nil => cases ht
    | cons first rest ih =>
      rw [shares]
      rcases List.mem_cons.mp ht with rfl | ht
      · exact ⟨fun c hc => List.mem_append_left _ hc, fun l hl => List.mem_append_left _ hl⟩
      · obtain ⟨hcolumns, hlevels⟩ := ih ht
        exact ⟨fun c hc => List.mem_append_right _ (hcolumns c hc),
          fun l hl => List.mem_append_right _ (hlevels l hl)⟩
  induction h with
  | top ht => exact hkid ht
  | under _ hbound ht ih =>
    obtain ⟨hcolumns, hlevels⟩ := hkid ht
    rw [LevelTree.share, if_neg (Bool.eq_false_iff.mp hbound)] at ih
    exact ⟨fun c hc => ih.1 c (List.mem_append_right _ (hcolumns c hc)),
      fun l hl => ih.2 l (List.mem_append_right _ (hlevels l hl))⟩

mutual

/-- The places whose levels a tree adds to the level around it. -/
def tops : RelationTree → List Relation
  | .node r kids => if r.isBound then [r] else topsAll kids

def topsAll : List RelationTree → List Relation
  | [] => []
  | t :: ts => tops t ++ topsAll ts

end

mutual

theorem relatives_share (owner : Path) : ∀ t : RelationTree,
    (share s owner t).levels.map (fun l => l.label.relative) =
      (tops t).map fun r => r.path.relativeTo owner
  | .node r kids => by
    rw [share, tops]
    split
    · rfl
    · exact relatives_shares owner kids

theorem relatives_shares (owner : Path) : ∀ ts : List RelationTree,
    (shares s owner ts).levels.map (fun l => l.label.relative) =
      (topsAll ts).map fun r => r.path.relativeTo owner
  | [] => rfl
  | t :: ts => by
    rw [shares, topsAll, List.map_append, ← relatives_share owner t, ← relatives_shares owner ts]
    exact List.map_append

end

mutual

theorem tops_sublist : ∀ t : RelationTree, (tops t).Sublist (places t.preorder)
  | .node r kids => by
    rw [tops, Tree.preorder, places, List.filter_cons]
    split
    · rename_i hbound
      rw [if_pos (Bool.and_eq_true _ _ ▸ hbound).1]
      exact (List.nil_sublist _).cons_cons r
    · split
      · exact (topsAll_sublist kids).cons r
      · exact topsAll_sublist kids

theorem topsAll_sublist : ∀ ts : List RelationTree, (topsAll ts).Sublist (places (Tree.preorderAll ts))
  | [] => .slnil
  | t :: ts => by
    rw [topsAll, Tree.preorderAll, places, List.filter_append]
    exact (tops_sublist t).append (topsAll_sublist ts)

end

mutual

theorem joins_of_mem_tops {whole : List RelationTree} : ∀ {t : RelationTree}, Joins whole t →
    ∀ r ∈ tops t, r.isBound = true ∧ ∃ kids, Joins whole (.node r kids)
  | .node r kids, hjoins, q, hq => by
    rw [tops] at hq
    split at hq
    · rename_i hbound
      rw [List.mem_singleton.mp hq]
      exact ⟨hbound, kids, hjoins⟩
    · rename_i hbound
      exact joins_of_mem_topsAll kids
        (fun t ht => .under hjoins (Bool.eq_false_iff.mpr hbound) ht) q hq

theorem joins_of_mem_topsAll {whole : List RelationTree} : ∀ (ts : List RelationTree),
    (∀ t ∈ ts, Joins whole t) → ∀ r ∈ topsAll ts, r.isBound = true ∧ ∃ kids, Joins whole (.node r kids)
  | t :: ts, hjoins, q, hq => by
    rw [List.forall_mem_cons] at hjoins
    rw [topsAll] at hq
    rcases List.mem_append.mp hq with hq | hq
    · exact joins_of_mem_tops hjoins.1 q hq
    · exact joins_of_mem_topsAll ts hjoins.2 q hq

end

mutual

/-- The places embedded at the level that a tree adds to. -/
def insets : RelationTree → List Relation
  | .node r kids => if r.isBound then [] else if r.isEmbedded then r :: insetsAll kids else insetsAll kids

def insetsAll : List RelationTree → List Relation
  | [] => []
  | t :: ts => insets t ++ insetsAll ts

end

mutual

theorem joins_of_mem_insets {whole : List RelationTree} : ∀ {t : RelationTree}, Joins whole t →
    ∀ r ∈ insets t, r.isEmbedded = true ∧ ∃ kids, Joins whole (.node r kids)
  | .node r kids, hjoins, q, hq => by
    rw [insets] at hq
    split at hq
    · cases hq
    · rename_i hbound
      have hkids := joins_of_mem_insetsAll kids
        (fun t ht => .under hjoins (Bool.eq_false_iff.mpr hbound) ht)
      split at hq
      · rename_i hembedded
        rcases List.mem_cons.mp hq with rfl | hq
        · exact ⟨hembedded, kids, hjoins⟩
        · exact hkids q hq
      · exact hkids q hq

theorem joins_of_mem_insetsAll {whole : List RelationTree} : ∀ (ts : List RelationTree),
    (∀ t ∈ ts, Joins whole t) →
      ∀ r ∈ insetsAll ts, r.isEmbedded = true ∧ ∃ kids, Joins whole (.node r kids)
  | t :: ts, hjoins, q, hq => by
    rw [List.forall_mem_cons] at hjoins
    rw [insetsAll] at hq
    rcases List.mem_append.mp hq with hq | hq
    · exact joins_of_mem_insets hjoins.1 q hq
    · exact joins_of_mem_insetsAll ts hjoins.2 q hq

end

theorem mem_insetsAll {ts : List RelationTree} {t : RelationTree} (ht : t ∈ ts) :
    ∀ r ∈ insets t, r ∈ insetsAll ts := by
  induction ts with
  | nil => cases ht
  | cons first rest ih =>
    intro r hr
    rw [insetsAll]
    rcases List.mem_cons.mp ht with rfl | ht
    · exact List.mem_append_left _ hr
    · exact List.mem_append_right _ (ih ht r hr)

/-- A place that is embedded at a level is among those of the level. -/
theorem Joins.insets {whole : List RelationTree} {t : RelationTree} (h : Joins whole t) :
    ∀ r ∈ insets t, r ∈ insetsAll whole := by
  induction h with
  | top ht => exact mem_insetsAll ht
  | @under r kids t _ hbound ht ih =>
    intro q hq
    apply ih
    rw [LevelTree.insets, if_neg (Bool.eq_false_iff.mp hbound)]
    split
    · exact List.mem_cons_of_mem _ (mem_insetsAll ht q hq)
    · exact mem_insetsAll ht q hq

/-- The ways from the owner of a level tell the levels below apart, and none of them leads to a place that
is embedded at the level. -/
structure WaysApart (owner : Path) (whole : List RelationTree) : Prop where
  distinct : ((topsAll whole).map fun r => r.path.relativeTo owner).Nodup
  embedded : ∀ e ∈ insetsAll whole, ∀ r ∈ topsAll whole,
    r.path.relativeTo owner ≠ e.path.relativeTo owner

instance (owner : Path) (whole : List RelationTree) : Decidable (WaysApart owner whole) :=
  decidable_of_iff (((topsAll whole).map fun r => r.path.relativeTo owner).Nodup ∧
      ∀ e ∈ insetsAll whole, ∀ r ∈ topsAll whole, r.path.relativeTo owner ≠ e.path.relativeTo owner)
    ⟨fun h => ⟨h.1, h.2⟩, fun h => ⟨h.distinct, h.embedded⟩⟩

mutual

/-- At every level of a tree the ways are apart. -/
def Legible : RelationTree → Prop
  | .node r kids => (r.isBound = true → WaysApart r.path kids) ∧ LegibleAll kids

def LegibleAll : List RelationTree → Prop
  | [] => True
  | t :: ts => Legible t ∧ LegibleAll ts

end

mutual

def decidableLegible : (t : RelationTree) → Decidable (Legible t)
  | .node _ kids =>
    have := decidableLegibleAll kids
    inferInstanceAs (Decidable ((_ → _) ∧ _))

def decidableLegibleAll : (ts : List RelationTree) → Decidable (LegibleAll ts)
  | [] => inferInstanceAs (Decidable True)
  | t :: ts =>
    have := decidableLegible t
    have := decidableLegibleAll ts
    inferInstanceAs (Decidable (_ ∧ _))

end

instance : DecidablePred Legible := decidableLegible

theorem legibleAll_iff {ts : List RelationTree} : LegibleAll ts ↔ ∀ t ∈ ts, Legible t := by
  induction ts with
  | nil => exact ⟨fun _ => List.forall_mem_nil _, fun _ => trivial⟩
  | cons t ts ih => rw [LegibleAll, List.forall_mem_cons, ih]

theorem Joins.legible {whole : List RelationTree} (hlegible : LegibleAll whole) {t : RelationTree}
    (h : Joins whole t) : Legible t := by
  induction h with
  | top ht => exact legibleAll_iff.mp hlegible _ ht
  | under _ _ ht ih => exact legibleAll_iff.mp ih.2 _ ht

theorem Joins.nests {whole : List RelationTree} {owner : Path} (hnests : NestsAll owner whole)
    {t : RelationTree} (h : Joins whole t) : Nests owner t := by
  induction h with
  | top ht => exact nestsAll_iff.mp hnests _ ht
  | under _ hbound ht ih =>
    have hkids := ih.2
    rw [Relation.ownerBelow, if_neg (Bool.eq_false_iff.mp hbound)] at hkids
    exact nestsAll_iff.mp hkids _ ht

section Paths

/-- Ways are apart where places have paths of their own, below that of the owner of the level. -/
theorem waysApart_of_paths {owner : Path} {whole : List RelationTree}
    (hdistinct : ((places (Tree.preorderAll whole)).map Relation.path).Nodup)
    (hbelow : PathsBelowAll owner whole) : WaysApart owner whole := by
  have hlevels : ∀ r ∈ topsAll whole, r.isBound = true ∧ owner.steps <+: r.path.steps := by
    intro r hr
    obtain ⟨hbound, kids, hjoins⟩ := joins_of_mem_topsAll whole (fun t ht => .top ht) r hr
    exact ⟨hbound, (hjoins.below_path hbelow).1⟩
  constructor
  · have hpaths : (topsAll whole).map (fun r => r.path.relativeTo owner) =
        ((topsAll whole).map Relation.path).map fun p => p.relativeTo owner := by
      rw [List.map_map]
      rfl
    rw [hpaths]
    refine List.Nodup.map_on ?_ (hdistinct.sublist ((topsAll_sublist whole).map _))
    intro p hp q hq hsame
    obtain ⟨r, hr, rfl⟩ := List.mem_map.mp hp
    obtain ⟨r', hr', rfl⟩ := List.mem_map.mp hq
    exact Path.eq_of_relativeTo_eq (hlevels r hr).2 (hlevels r' hr').2 hsame
  · intro e he r hr hsame
    obtain ⟨hembedded, kids, hjoins⟩ := joins_of_mem_insetsAll whole (fun t ht => .top ht) e he
    have hpath := Path.eq_of_relativeTo_eq (hlevels r hr).2 (hjoins.below_path hbelow).1 hsame
    have hmem : e ∈ places (Tree.preorderAll whole) := by
      refine List.mem_filter.mpr ⟨hjoins.sublist.subset List.mem_cons_self, ?_⟩
      rw [e.isTransparent_of_embedded hembedded]
      rfl
    have heq := List.inj_on_of_nodup_map hdistinct ((topsAll_sublist whole).subset hr) hmem hpath
    have hbound := (hlevels r hr).1
    rw [heq, Relation.isBound, hembedded, Bool.not_true, Bool.and_false] at hbound
    cases hbound

mutual

theorem legible_of_paths : ∀ (t : RelationTree) {above : Path},
    ((places t.preorder).map Relation.path).Nodup → PathsBelow above t → Legible t
  | .node r kids, above, hdistinct, ⟨_, hbelow⟩ => by
    have hkids : ((places (Tree.preorderAll kids)).map Relation.path).Nodup :=
      hdistinct.sublist (((List.sublist_cons_self r _).filter _).map _)
    exact ⟨fun _ => waysApart_of_paths hkids hbelow, legibleAll_of_paths kids hkids hbelow⟩

theorem legibleAll_of_paths : ∀ (ts : List RelationTree) {above : Path},
    ((places (Tree.preorderAll ts)).map Relation.path).Nodup → PathsBelowAll above ts → LegibleAll ts
  | [], _, _, _ => trivial
  | t :: ts, above, hdistinct, ⟨ht, hts⟩ => by
    rw [Tree.preorderAll, places, List.filter_append, List.map_append] at hdistinct
    exact ⟨legible_of_paths t hdistinct.of_append_left ht,
      legibleAll_of_paths ts hdistinct.of_append_right hts⟩

end

/-- Places that have paths of their own, below those around them, are found by their ways. -/
theorem legible_of_pathsApart {relations : Relations} (h : relations.PathsApart) :
    Legible relations.tree :=
  legible_of_paths _ h.distinct h.below

end Paths

section Ways

variable {owner : Path} {whole : List RelationTree} (hways : WaysApart owner whole)

include hways

/-- The level of a place with a table is found by the way to the place. -/
theorem WaysApart.find?_bound {r : Relation} {kids : List RelationTree}
    (hjoins : Joins whole (.node r kids)) (hbound : r.isBound = true) :
    (shares s owner whole).levels.find? (fun l => l.label.relative == r.path.relativeTo owner) =
      some (.node (.ofColumns (r.path.relativeTo owner)
        (Level.columnsOf r.path r ++ (shares s r.path kids).columns) (r.keyNames s))
          (shares s r.path kids).levels) := by
  have hmem := (hjoins.share (s := s) owner).2
  rw [share, if_pos hbound] at hmem
  have hdistinct : ((shares s owner whole).levels.map fun l => l.label.relative).Nodup := by
    rw [relatives_shares]
    exact hways.distinct
  exact find?_of_nodup_map hdistinct (hmem _ List.mem_cons_self)

/-- No level is found by the way to an embedded place. -/
theorem WaysApart.find?_embedded {r : Relation} {kids : List RelationTree}
    (hjoins : Joins whole (.node r kids)) (hembedded : r.isEmbedded = true) :
    (shares s owner whole).levels.find? (fun l => l.label.relative == r.path.relativeTo owner) =
      none := by
  have hbound : ¬r.isBound = true := by
    rw [Relation.isBound, hembedded, Bool.not_true, Bool.and_false]
    exact Bool.false_ne_true
  have hinset : r ∈ insetsAll whole := by
    apply hjoins.insets
    rw [insets, if_neg hbound, if_pos hembedded]
    exact List.mem_cons_self
  rw [List.find?_eq_none]
  intro l hl hway
  have hrelative : l.label.relative ∈ (topsAll whole).map fun r => r.path.relativeTo owner := by
    rw [← relatives_shares (s := s)]
    exact List.mem_map_of_mem hl
  obtain ⟨q, hq, hsame⟩ := List.mem_map.mp hrelative
  exact hways.embedded r hinset q hq (hsame.trans (eq_of_beq hway))

end Ways

/-- The level of a place with a table, and a place whose columns stand in it: the place itself, or one
embedded in it under the way `base`. -/
structure At (s : Schema) (levels : LevelTree) (owner : Relation) (whole : List RelationTree)
    (base : Path) (place : Relation) (trees : List RelationTree) : Prop where
  columns : levels.label.columns =
    Level.columnsOf owner.path owner ++ (shares s owner.path whole).columns
  children : levels.children = (shares s owner.path whole).levels
  nests : NestsAll owner.path whole
  ways : WaysApart owner.path whole
  legible : LegibleAll whole
  base : place.path = ⟨owner.path.steps ++ base.steps⟩
  stands : place = owner ∧ trees = whole ∨
    Joins whole (.node place trees) ∧ place.isBound = false

namespace At

variable {levels : LevelTree} {owner place inner : Relation} {whole trees below : List RelationTree}
  {base : Path} {t : RelationTree} (h : At s levels owner whole base place trees)

include h

/-- A column of the place is one of the level, named by the way to it. -/
theorem column {c : ProjectedColumn} (hc : c ∈ place.columns) :
    ⟨(base.join c.name).display, place.columnAlias c⟩ ∈ levels.label.columns := by
  have hway : (place.path.relativeTo owner.path).join c.name = base.join c.name := by
    rw [h.base, Path.relativeTo_append]
  have hmem : (⟨(base.join c.name).display, place.columnAlias c⟩ : LevelColumn) ∈
      Level.columnsOf owner.path place := by
    rw [← hway]
    exact List.mem_map.mpr ⟨c, hc, rfl⟩
  rw [h.columns]
  rcases h.stands with ⟨rfl, rfl⟩ | ⟨hjoins, hbound⟩
  · exact List.mem_append_left _ hmem
  · have hshare := (hjoins.share (s := s) owner.path).1
    rw [share, if_neg (Bool.eq_false_iff.mp hbound)] at hshare
    exact List.mem_append_right _ (hshare _ (List.mem_append_left _ hmem))

theorem joins (ht : t ∈ trees) (hshows : Shows t (.node inner below)) :
    Joins whole (.node inner below) := by
  refine Joins.shows hshows ?_
  rcases h.stands with ⟨rfl, rfl⟩ | ⟨hjoins, hbound⟩
  · exact .top ht
  · exact .under hjoins hbound ht

theorem relativeTo {name : String} (hpath : inner.path = place.path.join name) :
    inner.path.relativeTo owner.path = base.join name := by
  rw [hpath, h.base, Path.join, List.append_assoc, Path.relativeTo_append]
  rfl

/-- A place with a table is at its own level. -/
theorem bound (ht : t ∈ trees) (hshows : Shows t (.node inner below)) {name : String}
    (hpath : inner.path = place.path.join name) (hbound : inner.isEmbedded = false) :
    ∃ child, levels.child? (base.join name) = some child ∧ At s child inner below .root inner below := by
  have hjoins := h.joins ht hshows
  have hplace : inner.isBound = true := by
    rw [Relation.isBound, hbound, show inner.isTransparent = false from hshows.label]
    rfl
  have hnests := (hjoins.nests h.nests).2
  rw [Relation.ownerBelow, if_pos hplace] at hnests
  have hlegible := hjoins.legible h.legible
  refine ⟨.node (.ofColumns (inner.path.relativeTo owner.path)
    (Level.columnsOf inner.path inner ++ (shares s inner.path below).columns) (inner.keyNames s))
      (shares s inner.path below).levels, ?_, rfl, rfl, hnests, hlegible.1 hplace, hlegible.2, ?_,
        Or.inl ⟨rfl, rfl⟩⟩
  · rw [child?, h.children, ← h.relativeTo hpath]
    exact h.ways.find?_bound hjoins hplace
  · rw [Path.root, List.append_nil]

/-- An embedded place is at the level around it, one step further. -/
theorem embedded (ht : t ∈ trees) (hshows : Shows t (.node inner below)) {name : String}
    (hpath : inner.path = place.path.join name) (hembedded : inner.isEmbedded = true) :
    levels.child? (base.join name) = none ∧
      At s levels owner whole (base.join name) inner below := by
  have hjoins := h.joins ht hshows
  have hplace : inner.isBound = false := by
    rw [Relation.isBound, hembedded, Bool.not_true, Bool.and_false]
  refine ⟨?_, h.columns, h.children, h.nests, h.ways, h.legible, ?_, Or.inr ⟨hjoins, hplace⟩⟩
  · rw [child?, h.children, ← h.relativeTo hpath]
    exact h.ways.find?_embedded hjoins hembedded
  · rw [hpath, h.base, Path.join, Path.join, List.append_assoc]

end At

/-- The root of relations is at the root level. -/
theorem at_root (s : Schema) {relations : Relations} (hroot : relations.root.isBound = true)
    (hnests : Nests .root relations.tree) (hlegible : Legible relations.tree) :
    At s (ofRelations s relations) relations.root relations.tree.children .root relations.root
      relations.tree.children := by
  obtain ⟨⟨root, kids⟩, supply⟩ := relations
  have hbound : root.isBound = true := hroot
  have hlevels : ofRelations s ⟨.node root kids, supply⟩ =
      .node (.ofColumns (root.path.relativeTo .root)
        (Level.columnsOf root.path root ++ (shares s root.path kids).columns) (root.keyNames s))
          (shares s root.path kids).levels := by
    rw [ofRelations, share, if_pos hbound]
    rfl
  rw [hlevels]
  refine ⟨rfl, rfl, ?_, hlegible.1 hbound, hlegible.2, ?_, Or.inl ⟨rfl, rfl⟩⟩
  · have hkids := hnests.2
    rw [Relation.ownerBelow, if_pos hbound] at hkids
    exact hkids
  · show root.path = ⟨root.path.steps ++ Path.root.steps⟩
    rw [Path.root, List.append_nil]

end LevelTree

end ShapeSql
