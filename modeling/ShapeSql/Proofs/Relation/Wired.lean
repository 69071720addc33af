import ShapeSql.Proofs.Relation.Edges

namespace ShapeSql

variable {s : Schema} {table : Table}

namespace Relations

structure Wired (s : Schema) (table : Table) (relations : Relations) : Prop where
  given : relations.Given
  rootTable : relations.root.table = table.id
  rootAlias : relations.root.aliasName = table.name
  rootKind : relations.root.kind = .root
  columns : ∀ c ∈ relations.root.columns, table.Owns c.column
  tied : TiedAll s table.name table.id relations.tree.children

theorem wired_ofTable (s : Schema) (table : Table) : (ofTable table).Wired s table where
  given := given_ofTable table
  rootTable := rfl
  rootAlias := rfl
  rootKind := rfl
  columns := nofun
  tied := trivial

/-- Keys are columns of the table that they are projected from. -/
theorem owns_of_anchorKey (hs : s.Sound) {r : Relation} (hr : r.Placed s)
    (hcolumns : ∀ c ∈ r.columns, (s.table r.table).Owns c.column) :
    ∀ c ∈ (r.anchorKey s).columns, (s.table r.table).Owns c.column := by
  obtain ⟨t, ht, hid⟩ := hr
  have hlaid : (s.table r.table).Laid := by
    rw [← hid, hs.table_id ht]
    exact hs.laid t ht
  have hfold : ∀ (keys : List ColumnId) (columns : List ProjectedColumn),
      (∀ key ∈ keys, (s.table r.table).Owns key) →
        (∀ c ∈ columns, (s.table r.table).Owns c.column) →
          ∀ c ∈ keys.foldl (Relation.anchorColumn s) columns, (s.table r.table).Owns c.column := by
    intro keys
    induction keys with
    | nil => exact fun _ _ h => h
    | cons key keys ih =>
      intro columns hkeys hcolumns
      rw [List.forall_mem_cons] at hkeys
      apply ih _ hkeys.2
      unfold Relation.anchorColumn
      split
      · exact hcolumns
      · intro c hc
        rcases List.mem_append.mp hc with hold | hnew
        · exact hcolumns c hold
        · rw [List.mem_singleton.mp hnew]
          exact hkeys.1
  unfold Relation.anchorKey
  split
  · exact hfold _ _ (fun key hkey => hlaid.owns_of_mem_primaryKey hkey) hcolumns
  · exact hcolumns

theorem same_anchorKey (s : Schema) (r : Relation) : (r.anchorKey s).table = r.table ∧
    (r.anchorKey s).aliasName = r.aliasName ∧ (r.anchorKey s).kind = r.kind ∧
      (r.anchorKey s).join = r.join ∧ (r.anchorKey s).id = r.id := by
  unfold Relation.anchorKey
  split
  · exact ⟨rfl, rfl, rfl, rfl, rfl⟩
  · exact ⟨rfl, rfl, rfl, rfl, rfl⟩

mutual

theorem tied_anchorKeys (hs : s.Sound) : ∀ (t : RelationTree) {parentAlias : String}
    {parent : TableId}, Tied s parentAlias parent t →
      Tied s parentAlias parent (t.map (Relation.anchorKey s))
  | .node r kids, _, _, ⟨hunder, hkids⟩ => by
    obtain ⟨htable, haliasName, hkind, hjoin, _⟩ := same_anchorKey s r
    rw [Tree.map, Tied, htable, haliasName]
    refine ⟨?_, tiedAll_anchorKeys hs kids hkids⟩
    exact {
      placed := by
        rw [Relation.Placed, htable]
        exact hunder.placed
      columns := by
        rw [htable]
        exact owns_of_anchorKey hs hunder.placed hunder.columns
      pairs := by
        rw [htable, hjoin]
        exact hunder.pairs
      embedded := by
        rw [hkind, htable, haliasName, hjoin]
        exact hunder.embedded
      root := by
        rw [hkind]
        exact hunder.root
      single := by
        rw [hkind, hjoin]
        exact hunder.single
      paired := by
        rw [hkind, hjoin]
        exact hunder.paired }

theorem tiedAll_anchorKeys (hs : s.Sound) : ∀ (ts : List RelationTree) {parentAlias : String}
    {parent : TableId}, TiedAll s parentAlias parent ts →
      TiedAll s parentAlias parent (Tree.mapAll (Relation.anchorKey s) ts)
  | [], _, _, _ => trivial
  | t :: ts, _, _, ⟨ht, hts⟩ =>
    ⟨tied_anchorKeys hs t ht, tiedAll_anchorKeys hs ts hts⟩

end

theorem Wired.anchorKeys (hs : s.Sound) (htable : table ∈ s.tables) {relations : Relations}
    (h : relations.Wired s table) : (relations.anchorKeys s).Wired s table := by
  obtain ⟨⟨root, kids⟩, supply⟩ := relations
  obtain ⟨hsame, haliasName, hkind, _, _⟩ := same_anchorKey s root
  have hroot : (⟨.node root kids, supply⟩ : Relations).root = root := rfl
  exact {
    given := h.given.anchorKeys s
    rootTable := hsame.trans h.rootTable
    rootAlias := haliasName.trans h.rootAlias
    rootKind := hkind.trans h.rootKind
    columns := by
      have hcolumns := h.columns
      have htableId : root.table = table.id := h.rootTable
      rw [hroot] at hcolumns
      have howned : ∀ c ∈ root.columns, (s.table root.table).Owns c.column := by
        rw [htableId, hs.table_id htable]
        exact hcolumns
      have hkeys := owns_of_anchorKey hs ⟨table, htable, htableId.symm⟩ howned
      rw [htableId, hs.table_id htable] at hkeys
      exact hkeys
    tied := tiedAll_anchorKeys hs kids h.tied }

/-- Places set up below the target table. -/
theorem wired_below {columns : List ProjectedColumn} {kids : List RelationTree} {supply : Supply}
    (hgiven : (ofTable table).supply.Gives supply (stamps kids))
    (hcolumns : ∀ c ∈ columns, table.Owns c.column) (htied : TiedAll s table.name table.id kids) :
    Wired s table ⟨.node { (ofTable table).root with columns } kids, supply⟩ where
  given := given_below hgiven
  rootTable := rfl
  rootAlias := rfl
  rootKind := rfl
  columns := hcolumns
  tied := htied

/-- A merge leaves wired relations, also where it stops halfway. -/
theorem Wired.merge {own other : Relations} (hown : own.Wired s table) (hother : other.Wired s table) :
    (own.merge other).value.Wired s table := by
  have hgiven := hown.given.merge other
  unfold Relations.merge at hgiven ⊢
  split
  · rename_i hsame
    rw [if_pos hsame] at hgiven
    obtain ⟨⟨root, kids⟩, supply⟩ := own
    obtain ⟨⟨otherRoot, otherKids⟩, otherSupply⟩ := other
    exact {
      given := hgiven
      rootTable := hown.rootTable
      rootAlias := hown.rootAlias
      rootKind := hown.rootKind
      columns := owns_of_uniteColumns hown.columns hother.columns
      tied := by
        have halias : root.aliasName = table.name := hown.rootAlias
        show TiedAll s table.name table.id (mergeTrees root.aliasName kids otherKids supply).value
        rw [halias]
        exact mergeTrees_tied otherKids _ kids supply hown.tied hother.tied }
  · exact hown

theorem Wired.merged {own other relations : Relations} (hown : own.Wired s table)
    (hother : other.Wired s table) (h : own.merged other = .ok relations) :
    relations.Wired s table := by
  obtain ⟨htable, _, rfl⟩ := merged_inv h
  have hmerge := hown.merge hother
  rw [Relations.merge, if_pos htable] at hmerge
  exact hmerge

/-- The same place of another tree, as far as statements name it. -/
structure SamePlace (before after : Relation) : Prop where
  id : after.id = before.id
  table : after.table = before.table
  aliasName : after.aliasName = before.aliasName
  kind : after.kind = before.kind

theorem SamePlace.refl (r : Relation) : SamePlace r r := ⟨rfl, rfl, rfl, rfl⟩

theorem SamePlace.trans {a b c : Relation} (hab : SamePlace a b) (hbc : SamePlace b c) :
    SamePlace a c :=
  ⟨hbc.id.trans hab.id, hbc.table.trans hab.table, hbc.aliasName.trans hab.aliasName,
    hbc.kind.trans hab.kind⟩

/-- Every relation of the first list is there in the second. -/
def KeptIn (before after : List Relation) : Prop := ∀ r ∈ before, ∃ q ∈ after, SamePlace r q

theorem KeptIn.refl (rs : List Relation) : KeptIn rs rs := fun r hr => ⟨r, hr, .refl r⟩

theorem KeptIn.trans {xs ys zs : List Relation} (hxy : KeptIn xs ys) (hyz : KeptIn ys zs) :
    KeptIn xs zs := by
  intro r hr
  obtain ⟨q, hq, hrq⟩ := hxy r hr
  obtain ⟨t, ht, hqt⟩ := hyz q hq
  exact ⟨t, ht, hrq.trans hqt⟩

theorem KeptIn.append {xs ys xs' ys' : List Relation} (hx : KeptIn xs xs') (hy : KeptIn ys ys') :
    KeptIn (xs ++ ys) (xs' ++ ys') := by
  intro r hr
  rcases List.mem_append.mp hr with hleft | hright
  · obtain ⟨q, hq, hsame⟩ := hx r hleft
    exact ⟨q, List.mem_append_left _ hq, hsame⟩
  · obtain ⟨q, hq, hsame⟩ := hy r hright
    exact ⟨q, List.mem_append_right _ hq, hsame⟩

mutual

theorem mergeTree_kept : ∀ (other own : RelationTree) (u : Supply),
    KeptIn own.preorder (mergeTree own other u).value.preorder
  | .node r kids, .node label children, u => by
    intro q hq
    rw [Tree.preorder] at hq
    rw [mergeTree, Tree.preorder]
    rcases List.mem_cons.mp hq with rfl | hmem
    · exact ⟨_, List.mem_cons_self, ⟨rfl, rfl, rfl, rfl⟩⟩
    · obtain ⟨found, hfound, hsame⟩ := mergeTrees_kept kids label.aliasName children u q hmem
      exact ⟨found, List.mem_cons_of_mem _ hfound, hsame⟩

theorem mergeTrees_kept : ∀ (others : List RelationTree) (parentAlias : String)
    (own : List RelationTree) (u : Supply),
    KeptIn (Tree.preorderAll own) (Tree.preorderAll (mergeTrees parentAlias own others u).value)
  | [], _, own, _ => .refl _
  | t :: ts, parentAlias, own, u => by
    rcases mergeTrees_cons parentAlias own t ts u with ⟨_, h⟩ |
      ⟨before, label, children, behind, rfl, _, ⟨_, h⟩ | ⟨join, _, hplaced⟩⟩
    · rw [h]
      have hrest := mergeTrees_kept ts parentAlias (own ++ [(copyTree parentAlias t u).1])
        (copyTree parentAlias t u).2
      intro q hq
      exact hrest q (Tree.mem_preorderAll_append.mpr (Or.inl hq))
    · rw [h]
      exact .refl _
    · have hjoined : KeptIn (Tree.node label children).preorder
          (Tree.node { label with join } children).preorder := by
        intro q hq
        rw [Tree.preorder] at hq ⊢
        rcases List.mem_cons.mp hq with rfl | hmem
        · exact ⟨_, List.mem_cons_self, ⟨rfl, rfl, rfl, rfl⟩⟩
        · exact ⟨q, List.mem_cons_of_mem _ hmem, .refl q⟩
      have hmerged := hjoined.trans (mergeTree_kept t (.node { label with join } children) u)
      have hset : KeptIn (Tree.preorderAll (before ++ .node label children :: behind))
          (Tree.preorderAll
            (before ++ (mergeTree (.node { label with join } children) t u).value :: behind)) := by
        rw [Tree.preorderAll_append, Tree.preorderAll_append, Tree.preorderAll, Tree.preorderAll]
        exact (KeptIn.refl _).append (hmerged.append (.refl _))
      rcases hplaced with ⟨_, _, h⟩ | ⟨_, h⟩
      · rw [h]
        exact hset
      · rw [h]
        exact hset.trans (mergeTrees_kept ts parentAlias _ _)

end

theorem merged_kept {own other relations : Relations} (h : own.merged other = .ok relations) :
    KeptIn own.all relations.all := by
  obtain ⟨_, _, rfl⟩ := merged_inv h
  exact mergeTree_kept other.tree own.tree own.supply

theorem anchorKeys_kept (s : Schema) (relations : Relations) :
    KeptIn relations.all (relations.anchorKeys s).all := by
  intro r hr
  obtain ⟨htable, haliasName, hkind, _, hid⟩ := same_anchorKey s r
  refine ⟨r.anchorKey s, ?_, ⟨hid, htable, haliasName, hkind⟩⟩
  rw [all, Relations.anchorKeys, Tree.preorder_map]
  exact List.mem_map_of_mem hr

end Relations

namespace Resolver

variable {r : Resolver}

theorem resolve_wired (hs : r.schema.Sound) (hkeyed : r.schema.Keyed)
    (htable : table ∈ r.schema.tables) {output : FieldTree} {relations : Relations}
    (h : r.resolve table output = .ok relations) : relations.Wired r.schema table := by
  obtain ⟨columns, kids, supply, hrun, rfl⟩ := resolve_inv h
  obtain ⟨hcolumns, htied⟩ :=
    resolveFields_tied hs hkeyed output.children htable (List.forall_mem_nil _) hrun
  have hgives := resolveFields_gives output.children hrun
  exact (Relations.wired_below hgives hcolumns htied).anchorKeys hs htable

theorem resolvePath_wired (hs : r.schema.Sound) (hkeyed : r.schema.Keyed)
    (htable : table ∈ r.schema.tables) {path : Path} {relations : Relations}
    (h : r.resolvePath table path = .ok relations) : relations.Wired r.schema table := by
  obtain ⟨kids, supply, hrun, rfl⟩ := resolvePath_inv h
  have htied := resolveSteps_tied hs hkeyed htable hrun
  have hgives := resolveSteps_gives hrun
  have hwired : Relations.Wired r.schema table
      ⟨.node (Relations.ofTable table).root kids, supply⟩ :=
    Relations.wired_below hgives (List.forall_mem_nil _) htied
  exact hwired.anchorKeys hs htable

end Resolver

end ShapeSql
