import ShapeSql.Proofs.Relation.Aliases
import ShapeSql.Proofs.Relation.Links

namespace ShapeSql

variable {s : Schema}

/-- A place below the row source `parentAlias` of the table `parent`. -/
structure Relation.Under (s : Schema) (parentAlias : String) (parent : TableId) (r : Relation) :
    Prop where
  placed : r.Placed s
  columns : ∀ c ∈ r.columns, (s.table r.table).Owns c.column
  pairs : PairsBetween (s.table parent) (s.table r.table) r.join
  embedded : r.kind = .embedded → r.table = parent ∧ r.aliasName = parentAlias ∧ r.join = []
  root : r.kind ≠ .root
  single : r.kind = .navigation false → coversKey s r.join = true
  paired : r.kind ≠ .embedded → r.join ≠ []

mutual

/-- Every place of the tree hangs below the one above it, the first below the given row source. -/
def Tied (s : Schema) (parentAlias : String) (parent : TableId) : RelationTree → Prop
  | .node r kids => r.Under s parentAlias parent ∧ TiedAll s r.aliasName r.table kids

def TiedAll (s : Schema) (parentAlias : String) (parent : TableId) : List RelationTree → Prop
  | [] => True
  | t :: ts => Tied s parentAlias parent t ∧ TiedAll s parentAlias parent ts

end

theorem tiedAll_iff {parentAlias : String} {parent : TableId} {trees : List RelationTree} :
    TiedAll s parentAlias parent trees ↔ ∀ t ∈ trees, Tied s parentAlias parent t := by
  induction trees with
  | nil => exact ⟨fun _ => nofun, fun _ => trivial⟩
  | cons t ts ih => rw [TiedAll, List.forall_mem_cons, ih]

theorem TiedAll.append {parentAlias : String} {parent : TableId} {xs ys : List RelationTree}
    (hxs : TiedAll s parentAlias parent xs) (hys : TiedAll s parentAlias parent ys) :
    TiedAll s parentAlias parent (xs ++ ys) := by
  rw [tiedAll_iff, List.forall_mem_append]
  exact ⟨tiedAll_iff.mp hxs, tiedAll_iff.mp hys⟩

theorem tiedAll_singleton {parentAlias : String} {parent : TableId} {t : RelationTree} :
    TiedAll s parentAlias parent [t] ↔ Tied s parentAlias parent t := by
  rw [tiedAll_iff, List.forall_mem_singleton]

/-- Other columns of the same table do as well. -/
theorem Relation.Under.withColumns {parentAlias : String} {parent : TableId} {r : Relation}
    (h : r.Under s parentAlias parent) {columns : List ProjectedColumn}
    (hcolumns : ∀ c ∈ columns, (s.table r.table).Owns c.column) :
    Relation.Under s parentAlias parent { r with columns } where
  placed := h.placed
  columns := hcolumns
  pairs := h.pairs
  embedded := h.embedded
  root := h.root
  single := h.single
  paired := h.paired

/-- The relation of a step hangs below the row source that it sets out from. -/
theorem Step.From.under (hs : s.Sound) {parent : Table} (hparent : parent ∈ s.tables) {step : Step}
    (h : step.From s parent) (u : Supply) (name : String) (path : Path) (parentAlias : String) :
    (u.relation step.table.id name path step.join step.kind (step.desiredAlias path)
      parentAlias).1.Under s parentAlias parent.id := by
  have hpairs : PairsBetween (s.table parent.id) (s.table step.table.id) step.join := by
    rw [hs.table_id hparent, hs.table_id h.table]
    exact h.pairs
  cases hdesired : step.desiredAlias path with
  | none =>
    exact {
      placed := ⟨step.table, h.table, rfl⟩
      columns := nofun
      pairs := hpairs
      embedded := by
        intro hkind
        obtain ⟨htable, hjoin⟩ := h.embedded hkind
        exact ⟨congrArg Table.id htable, rfl, hjoin⟩
      root := h.root
      single := h.single
      paired := h.paired }
  | some desired =>
    exact {
      placed := ⟨step.table, h.table, rfl⟩
      columns := nofun
      pairs := hpairs
      embedded := by
        intro hkind
        rw [(step.desiredAlias_eq_none path).mp hkind] at hdesired
        cases hdesired
      root := h.root
      single := h.single
      paired := h.paired }

/-- The places of steps, with what belongs below the last one. -/
theorem Resolving.setUp_tied (hs : s.Sound) {name : String} {path : Path} {parentAlias : String}
    {parent : Table} (hparent : parent ∈ s.tables) {steps : List Step}
    (hsteps : StepsFrom s parent steps) {u u' : Supply} {places : List Relation}
    (hrun : (setUp name path parentAlias steps).run u = .ok (places, u'))
    {columns : List ProjectedColumn} {kids : List RelationTree}
    (hcolumns : ∀ c ∈ columns, ((steps.getLast?.map Step.table).getD parent).Owns c.column)
    (hkids : TiedAll s ((places.getLast?.map Relation.aliasName).getD parentAlias)
      ((steps.getLast?.map Step.table).getD parent).id kids) :
    TiedAll s parentAlias parent.id (nested columns kids places) := by
  induction steps generalizing parentAlias parent u places with
  | nil =>
    rw [setUp, run_pure_ok] at hrun
    obtain ⟨rfl, rfl⟩ := hrun
    exact hkids
  | cons step rest ih =>
    simp only [setUp, run_bind_ok, run_pure_ok, run_modifyGet_ok] at hrun
    obtain ⟨relation, between, hrelation, others, after, hothers, rfl, rfl⟩ := hrun
    have hunder := hsteps.1.under hs hparent u name path parentAlias
    have htable := u.table_relation step.table.id name path step.join step.kind
      (step.desiredAlias path) parentAlias
    rw [hrelation] at hunder htable
    have hlast : ((step :: rest).getLast?.map Step.table).getD parent =
        (rest.getLast?.map Step.table).getD step.table := by
      rw [List.getLast?_cons]
      cases rest.getLast? with
      | none => rfl
      | some _ => rfl
    have hlastAlias : ((relation :: others).getLast?.map Relation.aliasName).getD parentAlias =
        (others.getLast?.map Relation.aliasName).getD relation.aliasName := by
      rw [List.getLast?_cons]
      cases others.getLast? with
      | none => rfl
      | some _ => rfl
    rw [hlast] at hcolumns hkids
    rw [hlastAlias] at hkids
    have hbelow := ih hsteps.1.table hsteps.2 hothers hcolumns hkids
    cases others with
    | nil =>
      have hnone : rest = [] := by
        cases rest with
        | nil => rfl
        | cons second rest =>
          simp only [setUp, run_bind_ok, run_pure_ok, run_modifyGet_ok] at hothers
          obtain ⟨_, _, _, _, _, _, hcons, _⟩ := hothers
          cases hcons
      rw [hnone] at hcolumns
      have howned : ∀ c ∈ columns, (s.table relation.table).Owns c.column := by
        rw [htable, hs.table_id hsteps.1.table]
        exact hcolumns
      refine tiedAll_singleton.mpr ⟨hunder.withColumns howned, ?_⟩
      rw [htable]
      exact hbelow
    | cons second others =>
      refine tiedAll_singleton.mpr ⟨hunder, ?_⟩
      rw [htable]
      exact hbelow

namespace Resolver

variable {r : Resolver}

theorem findColumn_of_column {table : Table} {field : Field} {column : Column}
    (h : r.column table field = .ok column) : r.findColumn table field = some column := by
  unfold Resolver.column at h
  split at h
  · cases h
    assumption
  · cases h

theorem mem_of_findColumn {table : Table} {field : Field} {column : Column}
    (h : r.findColumn table field = some column) : column ∈ table.columns := by
  unfold findColumn at h
  split at h
  · exact mem_of_findNamed h
  · obtain ⟨name, _, hnamed⟩ := List.exists_of_findSome?_eq_some h
    exact mem_of_findNamed hnamed

theorem mem_of_column {table : Table} {field : Field} {column : Column}
    (h : r.column table field = .ok column) : column ∈ table.columns :=
  mem_of_findColumn (findColumn_of_column h)

theorem mem_of_scalarColumn {table : Table} {field : Field} {column : Column}
    (h : r.scalarColumn table field = .ok column) : column ∈ table.columns := by
  unfold scalarColumn at h
  split at h
  · cases h
  · exact mem_of_column h

theorem owns_of_project {table : Table} {columns : List ProjectedColumn} {column : ColumnId}
    {name : String} (hcolumns : ∀ c ∈ columns, table.Owns c.column) (hcolumn : table.Owns column) :
    ∀ c ∈ Relation.project columns column name, table.Owns c.column := by
  unfold Relation.project
  split
  · exact hcolumns
  · intro c hc
    rcases List.mem_append.mp hc with hold | hnew
    · exact hcolumns c hold
    · rw [List.mem_singleton.mp hnew]
      exact hcolumn

mutual

theorem resolveField_tied (hs : r.schema.Sound) (hkeyed : r.schema.Keyed) :
    ∀ (t : FieldTree) {table : Table} {aliasName : String} {columns : List ProjectedColumn}
      {u u' : Supply} {result : List ProjectedColumn × List RelationTree},
      table ∈ r.schema.tables → (∀ c ∈ columns, table.Owns c.column) →
      (r.resolveField table aliasName columns t).run u = .ok (result, u') →
        (∀ c ∈ result.1, table.Owns c.column) ∧ TiedAll r.schema aliasName table.id result.2
  | .node field kids, table, aliasName, columns, u, u', result, htable, hcolumns, hrun => by
    cases resolves_of_resolveField hrun with
    | excluded | cyclic => exact ⟨hcolumns, trivial⟩
    | scalar _ _ hcolumn =>
      exact ⟨owns_of_project hcolumns ⟨_, mem_of_scalarColumn hcolumn, rfl⟩, trivial⟩
    | places _ _ _ hsteps hplaces hbelow =>
      have hfrom := stepsTo_from hs hkeyed htable hsteps
      have htarget := last_table_mem hfrom.mem_tables htable
      obtain ⟨hown, hkids⟩ := resolveFields_tied hs hkeyed kids htarget (List.forall_mem_nil _) hbelow
      exact ⟨hcolumns, Resolving.setUp_tied hs htable hfrom hplaces hown hkids⟩

theorem resolveFields_tied (hs : r.schema.Sound) (hkeyed : r.schema.Keyed) :
    ∀ (ts : List FieldTree) {table : Table} {aliasName : String} {columns : List ProjectedColumn}
      {u u' : Supply} {result : List ProjectedColumn × List RelationTree},
      table ∈ r.schema.tables → (∀ c ∈ columns, table.Owns c.column) →
      (r.resolveFields table aliasName columns ts).run u = .ok (result, u') →
        (∀ c ∈ result.1, table.Owns c.column) ∧ TiedAll r.schema aliasName table.id result.2
  | [], table, aliasName, columns, u, u', result, htable, hcolumns, hrun => by
    rw [resolveFields, run_pure_ok] at hrun
    rw [← hrun.1]
    exact ⟨hcolumns, trivial⟩
  | t :: ts, table, aliasName, columns, u, u', result, htable, hcolumns, hrun => by
    simp only [resolveFields, run_bind_ok, run_pure_ok] at hrun
    obtain ⟨⟨_, first⟩, between, hfirst, ⟨_, others⟩, after, hothers, rfl, rfl⟩ := hrun
    obtain ⟨hmiddle, htied⟩ := resolveField_tied hs hkeyed t htable hcolumns hfirst
    obtain ⟨hlast, hrest⟩ := resolveFields_tied hs hkeyed ts htable hmiddle hothers
    exact ⟨hlast, htied.append hrest⟩

end

theorem resolveSteps_tied (hs : r.schema.Sound) (hkeyed : r.schema.Keyed) {steps : List String}
    {table : Table} (htable : table ∈ r.schema.tables) {aliasName : String} {walked : Path}
    {u u' : Supply} {trees : List RelationTree}
    (hrun : (r.resolveSteps table aliasName walked steps).run u = .ok (trees, u')) :
    TiedAll r.schema aliasName table.id trees := by
  induction steps generalizing table aliasName walked u trees with
  | nil =>
    rw [resolveSteps, run_pure_ok] at hrun
    rw [← hrun.1]
    trivial
  | cons step rest ih =>
    obtain ⟨target, link, places, between, below, hfound, hlink, hplaces, hbelow, rfl⟩ :=
      resolveSteps_cons hrun
    have htarget := mem_of_findTable hfound
    have hfrom := Step.ofLink_from hs htarget (link_sound hs htable htarget hlink)
      (link_between hs hkeyed htable htarget hlink) false
    have hlast : ((Step.ofLink r.schema target link false).getLast?.map Step.table).getD table =
        target := by
      cases link with
      | parentHolds _ | childHolds _ => rfl
      | junction _ _ _ => rfl
    refine Resolving.setUp_tied hs htable hfrom hplaces (List.forall_mem_nil _) ?_
    rw [hlast]
    exact ih htarget hbelow

end Resolver

namespace Relations

mutual

theorem copyTree_tied : ∀ (t : RelationTree) {above parentAlias : String} {parent : TableId}
    (u : Supply), Tied s above parent t → Tied s parentAlias parent (copyTree parentAlias t u).1
  | .node r kids, above, parentAlias, parent, u, ⟨hunder, hkids⟩ => by
    rw [copyTree]
    refine ⟨?_, ?_⟩
    · cases hkind : r.isEmbedded with
      | false =>
        have hnot : r.kind ≠ .embedded := by
          intro heq
          simp [Relation.isEmbedded, heq] at hkind
        exact {
          placed := hunder.placed
          columns := hunder.columns
          pairs := hunder.pairs
          embedded := fun heq => absurd heq hnot
          root := hunder.root
          single := hunder.single
          paired := hunder.paired }
      | true =>
        exact {
          placed := hunder.placed
          columns := hunder.columns
          pairs := hunder.pairs
          embedded := fun heq => ⟨(hunder.embedded heq).1, rfl, (hunder.embedded heq).2.2⟩
          root := hunder.root
          single := hunder.single
          paired := hunder.paired }
    · have htable := u.table_relation r.table r.name r.path r.join r.kind
        (if r.isEmbedded then none else some r.aliasName) parentAlias
      show TiedAll s _ (u.relation r.table r.name r.path r.join r.kind
        (if r.isEmbedded then none else some r.aliasName) parentAlias).1.table _
      rw [htable]
      exact copyTrees_tied kids _ hkids

theorem copyTrees_tied : ∀ (ts : List RelationTree) {above parentAlias : String} {parent : TableId}
    (u : Supply), TiedAll s above parent ts → TiedAll s parentAlias parent (copyTrees parentAlias ts u).1
  | [], _, _, _, _, _ => trivial
  | t :: ts, above, parentAlias, parent, u, ⟨ht, hts⟩ => by
    rw [copyTrees]
    exact ⟨copyTree_tied t u ht, copyTrees_tied ts _ hts⟩

end

/-- United columns are of one side or of the other. -/
theorem owns_of_uniteColumns {table : Table} {own other : List ProjectedColumn}
    (hown : ∀ c ∈ own, table.Owns c.column) (hother : ∀ c ∈ other, table.Owns c.column) :
    ∀ c ∈ uniteColumns own other, table.Owns c.column := by
  have hunite : ∀ (own : List ProjectedColumn) (added : ProjectedColumn),
      (∀ c ∈ own, table.Owns c.column) → table.Owns added.column →
        ∀ c ∈ uniteColumn own added, table.Owns c.column := by
    intro own added hown hadded
    induction own with
    | nil =>
      intro c hc
      rw [List.mem_singleton.mp hc]
      exact hadded
    | cons first rest ih =>
      rw [List.forall_mem_cons] at hown
      unfold uniteColumn
      split
      · exact List.forall_mem_cons.mpr ⟨hown.1, hown.2⟩
      · exact List.forall_mem_cons.mpr ⟨hown.1, ih hown.2⟩
  unfold uniteColumns
  induction other generalizing own with
  | nil => exact hown
  | cons added rest ih =>
    rw [List.forall_mem_cons] at hother
    exact ih (hunite own added hown hother.1) hother.2

/-- The common join of two places is the join of one of them. -/
theorem commonJoin?_cases {own other join : List JoinPair} (h : commonJoin? own other = some join) :
    join = own ∨ join = other := by
  unfold commonJoin? at h
  split at h
  · cases h
    exact Or.inr rfl
  · split at h
    · cases h
      exact Or.inl rfl
    · cases h

theorem matching_iff {own other : Relation} : matching own other = true ↔
    own.table = other.table ∧ own.kind = other.kind ∧ sameName own.name other.name = true := by
  simp [matching, and_assoc]

/-- A place that has a matching one's join in place of its own. -/
theorem under_withJoin {parentAlias above : String} {parent : TableId} {own other : Relation}
    (hown : own.Under s parentAlias parent) (hother : other.Under s above parent)
    (hmatching : matching own other = true) {join : List JoinPair}
    (hjoin : commonJoin? own.join other.join = some join) :
    Relation.Under s parentAlias parent { own with join } := by
  obtain ⟨htable, hkind, _⟩ := matching_iff.mp hmatching
  rcases commonJoin?_cases hjoin with rfl | rfl
  · exact hown
  · exact {
      placed := hown.placed
      columns := hown.columns
      pairs := by
        show PairsBetween _ (s.table own.table) _
        rw [htable]
        exact hother.pairs
      embedded := fun heq =>
        ⟨(hown.embedded heq).1, (hown.embedded heq).2.1, (hother.embedded (hkind ▸ heq)).2.2⟩
      root := hown.root
      single := fun heq => hother.single (hkind ▸ heq)
      paired := fun hnot => hother.paired (hkind ▸ hnot) }

mutual

theorem mergeTree_tied : ∀ (other own : RelationTree) {parentAlias above : String}
    {parent : TableId} (u : Supply), Tied s parentAlias parent own → Tied s above parent other →
      own.label.table = other.label.table → Tied s parentAlias parent (mergeTree own other u).value
  | .node r kids, .node label children, parentAlias, above, parent, u, ⟨hunder, hchildren⟩,
      ⟨hother, hkids⟩, htable => by
    rw [mergeTree]
    have hsame : label.table = r.table := htable
    refine ⟨hunder.withColumns (owns_of_uniteColumns hunder.columns ?_), ?_⟩
    · show ∀ c ∈ r.columns, (s.table label.table).Owns c.column
      rw [hsame]
      exact hother.columns
    · exact mergeTrees_tied kids _ children u hchildren (by
        show TiedAll s r.aliasName label.table kids
        rw [hsame]
        exact hkids)

theorem mergeTrees_tied : ∀ (others : List RelationTree) (parentAlias : String)
    (own : List RelationTree) {above : String} {parent : TableId} (u : Supply),
      TiedAll s parentAlias parent own → TiedAll s above parent others →
        TiedAll s parentAlias parent (mergeTrees parentAlias own others u).value
  | [], _, _, _, _, _, hown, _ => hown
  | t :: ts, parentAlias, own, above, parent, u, hown, ⟨ht, hts⟩ => by
    rcases mergeTrees_cons parentAlias own t ts u with ⟨_, h⟩ |
      ⟨before, label, children, behind, rfl, hmatching, ⟨_, h⟩ | ⟨join, hjoin, hplaced⟩⟩
    · rw [h]
      have hcopy : Tied s parentAlias parent (copyTree parentAlias t u).1 := copyTree_tied t u ht
      exact mergeTrees_tied ts _ _ _ (hown.append (tiedAll_singleton.mpr hcopy)) hts
    · rw [h]
      exact hown
    · rw [tiedAll_iff, List.forall_mem_append, List.forall_mem_cons] at hown
      obtain ⟨hbefore, ⟨hunder, hchildren⟩, hbehind⟩ := hown
      have hjoined : Tied s parentAlias parent (.node { label with join } children) := by
        obtain ⟨r, kids⟩ := t
        exact ⟨under_withJoin hunder ht.1 hmatching hjoin, hchildren⟩
      have hmerged := mergeTree_tied t (.node { label with join } children) u hjoined ht
        (matching_iff.mp hmatching).1
      have hset : TiedAll s parentAlias parent
          (before ++ (mergeTree (.node { label with join } children) t u).value :: behind) := by
        rw [tiedAll_iff, List.forall_mem_append, List.forall_mem_cons]
        exact ⟨hbefore, hmerged, hbehind⟩
      rcases hplaced with ⟨_, _, h⟩ | ⟨_, h⟩
      · rw [h]
        exact hset
      · rw [h]
        exact mergeTrees_tied ts _ _ _ hset hts

end

end Relations

end ShapeSql
