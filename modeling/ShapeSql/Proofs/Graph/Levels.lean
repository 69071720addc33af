import ShapeSql.Proofs.Graph.Expansion
import ShapeSql.Proofs.Relation.Anchored
import ShapeSql.Proofs.Relation.Nesting

namespace ShapeSql

namespace Path

theorem display_append {a b : List String} (ha : a ≠ []) (hb : b ≠ []) :
    display ⟨a ++ b⟩ = display ⟨a⟩ ++ "." ++ display ⟨b⟩ :=
  String.intercalate_append_of_ne_nil ha hb

theorem dropSteps_append (base steps : List String) : dropSteps base (base ++ steps) = some steps := by
  induction base with
  | nil => rfl
  | cons b base ih =>
    rw [List.cons_append, dropSteps, if_pos rfl]
    exact ih

theorem relativeTo_append (base steps : List String) :
    relativeTo ⟨base ++ steps⟩ ⟨base⟩ = ⟨steps⟩ := by
  rw [relativeTo, below?, dropSteps_append]
  rfl

/-- The result column that a name below a path stands for. -/
def qualify (owner : Path) (name : String) : String :=
  if owner.isRoot then name else owner.display ++ "." ++ name

theorem qualify_display (owner : List String) {steps : List String} (h : steps ≠ []) :
    qualify ⟨owner⟩ (display ⟨steps⟩) = display ⟨owner ++ steps⟩ := by
  unfold qualify
  split
  · rename_i hroot
    have hnil : owner = [] := List.isEmpty_iff.mp hroot
    rw [hnil, List.nil_append]
  · rename_i hroot
    rw [display_append (fun hnil => hroot (List.isEmpty_iff.mpr hnil)) h]

end Path

namespace Relation

/-- The names of the result columns that a relation projects. -/
def aliases (r : Relation) : List String := r.columns.map r.columnAlias

/-- A result column is named by the path of the place and the name of the column there. -/
theorem columnAlias_eq (r : Relation) {owner : Path} (h : owner.steps <+: r.path.steps)
    (c : ProjectedColumn) :
    r.columnAlias c = owner.qualify ((r.path.relativeTo owner).join c.name).display := by
  obtain ⟨owner⟩ := owner
  obtain ⟨rest, hrest⟩ := h
  have hpath : r.path = ⟨owner ++ rest⟩ := congrArg Path.mk hrest.symm
  have hname : c.name = Path.display ⟨[c.name]⟩ := (String.intercalate_singleton).symm
  have halias : r.columnAlias c = r.path.qualify c.name := rfl
  rw [halias, hpath, Path.relativeTo_append, Path.join]
  rw [Path.qualify_display owner (List.append_ne_nil_of_right_ne_nil _ (List.cons_ne_nil _ _))]
  rw [← List.append_assoc, ← Path.qualify_display _ (List.cons_ne_nil _ _), ← hname]

end Relation

namespace LevelTree

section Shares

variable (s : Schema)

theorem map_source_columnsOf (owner : Path) (r : Relation) :
    (Level.columnsOf owner r).map LevelColumn.source = r.aliases := by
  rw [Level.columnsOf, List.map_map, Relation.aliases]
  rfl

theorem columns_ofColumns (relative : Path) (columns : List LevelColumn) (key : List String) :
    (Level.ofColumns relative columns key).columns = columns := rfl

/-- The result columns that a share reads. -/
def Share.sources (share : Share) : List String :=
  share.columns.map LevelColumn.source ++ share.levels.flatMap LevelTree.sources

theorem Share.sources_append (a b : Share) :
    (a.append b).sources.Perm (a.sources ++ b.sources) := by
  have hmiddle : (b.columns.map LevelColumn.source ++ (a.levels.flatMap LevelTree.sources ++
      b.levels.flatMap LevelTree.sources)).Perm (a.levels.flatMap LevelTree.sources ++
        (b.columns.map LevelColumn.source ++ b.levels.flatMap LevelTree.sources)) := by
    rw [← List.append_assoc, ← List.append_assoc]
    exact List.perm_append_comm.append_right _
  simp only [Share.sources, Share.append, List.map_append, List.flatMap_append, List.append_assoc]
  exact hmiddle.append_left _

mutual

/-- The share of a relation reads what the relation and those below it project. -/
theorem sources_share : ∀ (t : RelationTree) (owner : Path),
    (share s owner t).sources.Perm (t.preorder.flatMap Relation.aliases)
  | .node r kids, owner => by
    rw [share, Tree.preorder, List.flatMap_cons]
    split
    · have hkids := sources_shares kids r.path
      simp only [Share.sources, List.map_nil, List.nil_append, List.flatMap_cons, List.flatMap_nil,
        List.append_nil]
      rw [sources_node, columns_ofColumns, List.map_append, map_source_columnsOf, List.append_assoc]
      exact hkids.append_left _
    · refine (Share.sources_append _ _).trans ?_
      have hown : Share.sources ⟨Level.columnsOf owner r, []⟩ = r.aliases := by
        rw [Share.sources, map_source_columnsOf, List.flatMap_nil, List.append_nil]
      rw [hown]
      exact (sources_shares kids owner).append_left _

theorem sources_shares : ∀ (ts : List RelationTree) (owner : Path),
    (shares s owner ts).sources.Perm ((Tree.preorderAll ts).flatMap Relation.aliases)
  | [], _ => .refl _
  | t :: ts, owner => by
    rw [shares, Tree.preorderAll, List.flatMap_append]
    exact (Share.sources_append _ _).trans ((sources_share t owner).append (sources_shares ts owner))

end

/-- The result columns of a level are named by the place that owns it, and it has a key. -/
structure Named (level : Level) : Prop where
  key : level.key ≠ []
  source : ∃ owner : Path, ∀ c ∈ level.columns, c.source = owner.qualify c.name

theorem source_columnsOf {owner : Path} {r : Relation}
    (h : r.columns = [] ∨ owner.steps <+: r.path.steps) :
    ∀ c ∈ Level.columnsOf owner r, c.source = owner.qualify c.name := by
  intro c hc
  obtain ⟨column, hcolumn, rfl⟩ := List.mem_map.mp hc
  rcases h with hnone | hstarts
  · rw [hnone] at hcolumn
    cases hcolumn
  · exact r.columnAlias_eq hstarts column

mutual

/-- The columns that a tree adds to the level around it are named by the place that owns the level. -/
theorem share_qualified : ∀ (t : RelationTree) {owner : Path}, Nests owner t →
    ∀ c ∈ (share s owner t).columns, c.source = owner.qualify c.name
  | .node r kids, owner, ⟨hr, hnests⟩ => by
    rw [share]
    split
    · exact nofun
    · rename_i hbound
      rw [Relation.ownerBelow, if_neg hbound] at hnests
      exact List.forall_mem_append.mpr
        ⟨source_columnsOf (hr (Bool.eq_false_iff.mpr hbound)), shares_qualified kids hnests⟩

theorem shares_qualified : ∀ (ts : List RelationTree) {owner : Path}, NestsAll owner ts →
    ∀ c ∈ (shares s owner ts).columns, c.source = owner.qualify c.name
  | [], _, _ => nofun
  | t :: ts, _, ⟨ht, hts⟩ =>
    List.forall_mem_append.mpr ⟨share_qualified t ht, shares_qualified ts hts⟩

end

/-- Every place with a table that the output names projects a key. -/
def KeyedAll (trees : List RelationTree) : Prop :=
  ∀ r ∈ Tree.preorderAll trees, r.isBound = true → r.keyNames s ≠ []

mutual

theorem share_named : ∀ (t : RelationTree) {owner : Path}, Nests owner t → KeyedAll s [t] →
    ∀ level ∈ Tree.preorderAll (share s owner t).levels, Named level
  | .node r kids, owner, ⟨hr, hnests⟩, hkeyed => by
    have hkids : KeyedAll s kids := fun q hq => hkeyed q
      (List.mem_append_left _ (List.mem_cons_of_mem _ hq))
    rw [share]
    split
    · rename_i hbound
      rw [Relation.ownerBelow, if_pos hbound] at hnests
      have hkey : r.keyNames s ≠ [] := hkeyed r List.mem_cons_self hbound
      intro level hlevel
      rcases List.mem_cons.mp (List.mem_append.mp hlevel |>.resolve_right List.not_mem_nil) with
        rfl | hlevel
      · constructor
        · rw [Level.ofColumns]
          split
          · rename_i hnone
            exact absurd (List.isEmpty_iff.mp hnone) hkey
          · exact hkey
        · refine ⟨r.path, ?_⟩
          rw [columns_ofColumns]
          exact List.forall_mem_append.mpr
            ⟨source_columnsOf (Or.inr List.prefix_rfl), shares_qualified s kids hnests⟩
      · exact shares_named kids hnests hkids level hlevel
    · rename_i hbound
      rw [Relation.ownerBelow, if_neg hbound] at hnests
      exact shares_named kids hnests hkids

theorem shares_named : ∀ (ts : List RelationTree) {owner : Path}, NestsAll owner ts → KeyedAll s ts →
    ∀ level ∈ Tree.preorderAll (shares s owner ts).levels, Named level
  | [], _, _, _ => nofun
  | t :: ts, owner, ⟨ht, hts⟩, hkeyed => by
    have hfirst : KeyedAll s [t] := fun q hq => hkeyed q (by
      rw [Tree.preorderAll, Tree.preorderAll, List.append_nil] at hq
      exact List.mem_append_left _ hq)
    intro level hlevel
    rcases Tree.mem_preorderAll_append.mp hlevel with hlevel | hlevel
    · exact share_named t ht hfirst level hlevel
    · exact shares_named ts hts (fun q hq => hkeyed q (List.mem_append_right _ hq)) level hlevel

end

end Shares

/-- Levels whose columns are named by the places that own them are sound if no result column is read
twice. -/
theorem sound_of_named {t : LevelTree} (h : ∀ level ∈ t.preorder, Named level)
    (hsources : t.sources.Nodup) : t.Sound := by
  intro level hlevel
  obtain ⟨owner, hsource⟩ := (h level hlevel).source
  refine ⟨?_, (h level hlevel).key⟩
  have hown : (level.columns.map LevelColumn.source).Nodup :=
    (List.nodup_flatMap.mp hsources).1 level hlevel
  have hmap : level.columns.map LevelColumn.source =
      (level.columns.map LevelColumn.name).map owner.qualify := by
    rw [List.map_map]
    exact List.map_congr_left hsource
  rw [hmap] at hown
  exact hown.of_map _

section Relations

variable {s : Schema} {relations : Relations}

/-- The levels of relations are those of their root. -/
theorem share_root (h : relations.root.isBound = true) :
    (share s .root relations.tree).columns = [] ∧
      (share s .root relations.tree).levels = [ofRelations s relations] := by
  obtain ⟨⟨root, kids⟩, supply⟩ := relations
  have hbound : root.isBound = true := h
  rw [ofRelations, share, if_pos hbound]
  exact ⟨rfl, rfl⟩

/-- The levels read exactly the result columns that the relations project. -/
theorem sources_ofRelations (h : relations.root.isBound = true) :
    (ofRelations s relations).sources.Perm (relations.all.flatMap Relation.aliases) := by
  have hperm := sources_share s relations.tree .root
  rw [Share.sources, (share_root h).1, (share_root h).2, List.map_nil, List.nil_append,
    List.flatMap_singleton] at hperm
  exact hperm

theorem ofRelations_sound (hroot : relations.root.isBound = true)
    (hnests : Nests .root relations.tree)
    (hkeyed : ∀ r ∈ relations.all, r.isBound = true → r.keyNames s ≠ [])
    (haliases : (relations.all.flatMap Relation.aliases).Nodup) :
    (ofRelations s relations).Sound := by
  apply sound_of_named
  · intro level hlevel
    have hkeys : KeyedAll s [relations.tree] := fun q hq => hkeyed q (by
      rw [Tree.preorderAll, Tree.preorderAll, List.append_nil] at hq
      exact hq)
    apply share_named s relations.tree hnests hkeys
    rw [(share_root hroot).2]
    exact List.mem_append_left _ hlevel
  · exact (sources_ofRelations hroot).nodup_iff.mpr haliases

end Relations

end LevelTree

section Keys

variable {s : Schema}

/-- A place with a table that the output names projects every column of the table's key. -/
theorem keyNames_anchorKey {r : Relation} (hbound : r.isBound = true)
    (hkey : (s.table r.table).hasKey = true) : (r.anchorKey s).keyNames s ≠ [] := by
  have hmask := (r.anchored_anchorKey s).mask hbound
  intro hnone
  rw [hnone, List.forall₂_nil_right_iff] at hmask
  rw [Table.hasKey, hmask] at hkey
  cases hkey

end Keys

end ShapeSql
