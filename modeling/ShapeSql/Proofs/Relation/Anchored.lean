import ShapeSql.Proofs.Relation.Growth

namespace ShapeSql

namespace Relation

section Columns

variable {s : Schema} {columns after : List ProjectedColumn} {key : ColumnId} {keys : List ColumnId}

/-- One of the columns is this one, under whatever name. -/
def Projects (columns : List ProjectedColumn) (key : ColumnId) : Prop :=
  ∃ c ∈ columns, c.column = key

instance : Decidable (Projects columns key) :=
  inferInstanceAs (Decidable (∃ c ∈ columns, c.column = key))

theorem Projects.mono (h : Projects columns key) (hsub : columns ⊆ after) : Projects after key := by
  obtain ⟨c, hc, hkey⟩ := h
  exact ⟨c, hsub hc, hkey⟩

theorem projects_iff_any : Projects columns key ↔ (columns.any fun c => c.column == key) = true := by
  simp only [Projects, List.any_eq_true, beq_iff_eq]

theorem anchorColumn_of_projects (h : Projects columns key) : anchorColumn s columns key = columns := by
  rw [anchorColumn, if_pos (projects_iff_any.mp h)]

/-- A key column that is not read yet comes last, as a mere anchor. -/
theorem anchorColumn_of_not_projects (h : ¬ Projects columns key) :
    ∃ name, anchorColumn s columns key = columns ++ [⟨key, name, true⟩] := by
  rw [anchorColumn, if_neg fun hany => h (projects_iff_any.mpr hany)]
  exact ⟨_, rfl⟩

theorem projects_anchorColumn : Projects (anchorColumn s columns key) key := by
  by_cases h : Projects columns key
  · rw [anchorColumn_of_projects h]
    exact h
  · obtain ⟨name, hadded⟩ := anchorColumn_of_not_projects (s := s) h
    rw [hadded]
    exact ⟨⟨key, name, true⟩, List.mem_append_right _ (List.mem_singleton.mpr rfl), rfl⟩

/-- What anchoring keys one after the other makes of some columns: these stay in front, and behind them come
anchors of keys that were not among them. -/
structure Grounded (keys : List ColumnId) (columns after : List ProjectedColumn) : Prop where
  kept : columns <+: after
  added : ∀ c ∈ after, c ∉ columns → c.anchor = true ∧ c.column ∈ keys ∧ ¬ Projects columns c.column
  complete : ∀ key ∈ keys, Projects after key

theorem grounded_foldl (s : Schema) : ∀ (keys : List ColumnId) (columns : List ProjectedColumn),
    Grounded keys columns (keys.foldl (anchorColumn s) columns) := by
  intro keys
  induction keys with
  | nil => exact fun columns => ⟨List.prefix_rfl, fun c hc hnew => absurd hc hnew, nofun⟩
  | cons key keys ih =>
    intro columns
    rw [List.foldl_cons]
    have hrest := ih (anchorColumn s columns key)
    have hkey : Projects (keys.foldl (anchorColumn s) (anchorColumn s columns key)) key :=
      projects_anchorColumn.mono hrest.kept.subset
    by_cases hprojects : Projects columns key
    · rw [anchorColumn_of_projects hprojects] at hrest hkey ⊢
      refine ⟨hrest.kept, fun c hc hnew => ?_, List.forall_mem_cons.mpr ⟨hkey, hrest.complete⟩⟩
      obtain ⟨hanchor, hmem, hmissing⟩ := hrest.added c hc hnew
      exact ⟨hanchor, List.mem_cons_of_mem _ hmem, hmissing⟩
    · obtain ⟨name, hadded⟩ := anchorColumn_of_not_projects (s := s) hprojects
      rw [hadded] at hrest hkey ⊢
      have hfront : columns <+: columns ++ [⟨key, name, true⟩] := List.prefix_append _ _
      refine ⟨hfront.trans hrest.kept, fun c hc hnew => ?_,
        List.forall_mem_cons.mpr ⟨hkey, hrest.complete⟩⟩
      by_cases hlast : c = ⟨key, name, true⟩
      · rw [hlast]
        exact ⟨rfl, List.mem_cons_self, hprojects⟩
      · have hlater : c ∉ columns ++ [⟨key, name, true⟩] := by
          rw [List.mem_append, List.mem_singleton]
          exact not_or_intro hnew hlast
        obtain ⟨hanchor, hmem, hmissing⟩ := hrest.added c hc hlater
        exact ⟨hanchor, List.mem_cons_of_mem _ hmem, fun hold => hmissing (hold.mono hfront.subset)⟩

/-- Keys that are all read are not added again. -/
theorem foldl_anchorColumn_of_projects (h : ∀ key ∈ keys, Projects columns key) :
    keys.foldl (anchorColumn s) columns = columns := by
  induction keys with
  | nil => rfl
  | cons key keys ih =>
    rw [List.forall_mem_cons] at h
    rw [List.foldl_cons, anchorColumn_of_projects h.1]
    exact ih h.2

end Columns

section Places

variable {s : Schema} {r q : Relation}

/-- A place with a table of its own reads all columns of the table's key. -/
def ReadsKey (s : Schema) (r : Relation) : Prop :=
  r.isBound = true → ∀ key ∈ (s.table r.table).primaryKey, Projects r.columns key

/-- The name that a key column goes by in the output of a place. -/
def KeyNamed (r : Relation) (key : ColumnId) (name : String) : Prop :=
  ∃ c, r.column? key = some c ∧ c.name = name

/-- A mask that misses no key has one name for each of them. -/
theorem keyNames_of_projects (h : ∀ key ∈ (s.table r.table).primaryKey, Projects r.columns key) :
    List.Forall₂ r.KeyNamed (s.table r.table).primaryKey (r.keyNames s) := by
  unfold keyNames
  generalize (s.table r.table).primaryKey = keys at h ⊢
  induction keys with
  | nil => exact .nil
  | cons key keys ih =>
    rw [List.forall_mem_cons] at h
    obtain ⟨d, hd, hkey⟩ := h.1
    have hsome : (r.column? key).isSome = true := by
      rw [column?, List.find?_isSome]
      exact ⟨d, hd, beq_iff_eq.mpr hkey⟩
    obtain ⟨c, hfound⟩ := Option.isSome_iff_exists.mp hsome
    rw [List.filterMap_cons, hfound]
    exact .cons ⟨c, hfound, rfl⟩ (ih h.2)

theorem anchorKey_of_readsKey (h : r.ReadsKey s) : r.anchorKey s = r := by
  unfold anchorKey
  split
  · rename_i hbound
    rw [foldl_anchorColumn_of_projects (h hbound)]
  · rfl

/-- What anchoring its key does to a place: nothing to a junction, a hop or an embedded place, and one with
a table of its own gets columns for what it does not read of the table's key, so that its mask names every
key column in order. -/
structure Anchored (s : Schema) (before after : Relation) : Prop where
  same : after = { before with columns := after.columns }
  kept : before.columns <+: after.columns
  unbound : before.isBound = false → after = before
  added : ∀ c ∈ after.columns, c ∉ before.columns → c.anchor = true ∧
    c.column ∈ (s.table before.table).primaryKey ∧ ¬ Projects before.columns c.column
  complete : before.isBound = true → ∀ key ∈ (s.table before.table).primaryKey,
    Projects after.columns key
  mask : before.isBound = true →
    List.Forall₂ after.KeyNamed (s.table before.table).primaryKey (after.keyNames s)

theorem anchored_anchorKey (s : Schema) (r : Relation) : r.Anchored s (r.anchorKey s) := by
  unfold anchorKey
  split
  · rename_i hbound
    have hgrounded := grounded_foldl s (s.table r.table).primaryKey r.columns
    exact {
      same := rfl
      kept := hgrounded.kept
      unbound := fun hunbound => Bool.noConfusion (hbound.symm.trans hunbound)
      added := hgrounded.added
      complete := fun _ => hgrounded.complete
      mask := fun _ => keyNames_of_projects hgrounded.complete }
  · rename_i hunbound
    exact {
      same := rfl
      kept := List.prefix_rfl
      unbound := fun _ => rfl
      added := fun c hc hnew => absurd hc hnew
      complete := fun hbound => absurd hbound hunbound
      mask := fun hbound => absurd hbound hunbound }

/-- A place whose key is anchored has only grown. -/
theorem Anchored.extends {before after : Relation} (h : before.Anchored s after) :
    before.Extends after := by
  rw [h.same]
  exact { Relation.Extends.refl before with columns := h.kept.map ProjectedColumn.shown }

theorem readsKey_anchorKey (s : Schema) (r : Relation) : (r.anchorKey s).ReadsKey s := by
  intro hbound key hkey
  have hsame := Relations.same_anchorKey s r
  rw [isBound_of_kind hsame.2.2.1] at hbound
  rw [hsame.1] at hkey
  exact (anchored_anchorKey s r).complete hbound key hkey

end Places

end Relation

namespace Relations

mutual

theorem widened_anchorKeys (s : Schema) : ∀ t : RelationTree, Widened t (t.map (Relation.anchorKey s))
  | .node r kids => ⟨(r.anchored_anchorKey s).extends, widenedAll_anchorKeys s kids⟩

theorem widenedAll_anchorKeys (s : Schema) : ∀ ts : List RelationTree,
    WidenedAll ts (Tree.mapAll (Relation.anchorKey s) ts)
  | [] => trivial
  | t :: ts => ⟨_, _, rfl, widened_anchorKeys s t, widenedAll_anchorKeys s ts⟩

end

section Merges

variable {P : Relation → Prop}

/-- A property that a place keeps when it grows, and that its copies have. -/
structure Lasting (P : Relation → Prop) : Prop where
  extended : ∀ before after : Relation, before.Extends after → P before → P after
  copied : ∀ r copy : Relation, copy.table = r.table → copy.kind = r.kind → copy.columns = r.columns →
    P r → P copy

mutual

theorem Lasting.copyTree (hP : Lasting P) : ∀ (t : RelationTree) (parentAlias : String) (u : Supply),
    (∀ r ∈ t.preorder, P r) → ∀ r ∈ (Relations.copyTree parentAlias t u).1.preorder, P r
  | .node r kids, parentAlias, u, h => by
    rw [Tree.preorder, List.forall_mem_cons] at h
    rw [Relations.copyTree, Tree.preorder, List.forall_mem_cons]
    refine ⟨hP.copied r _ ?_ ?_ rfl h.1, hP.copyTrees kids _ _ h.2⟩
    · exact u.table_relation ..
    · exact (u.path_relation ..).2.1

theorem Lasting.copyTrees (hP : Lasting P) :
    ∀ (ts : List RelationTree) (parentAlias : String) (u : Supply),
      (∀ r ∈ Tree.preorderAll ts, P r) →
        ∀ r ∈ Tree.preorderAll (Relations.copyTrees parentAlias ts u).1, P r
  | [], _, _, _ => nofun
  | t :: ts, parentAlias, u, h => by
    rw [Tree.preorderAll, List.forall_mem_append] at h
    rw [Relations.copyTrees, Tree.preorderAll, List.forall_mem_append]
    exact ⟨hP.copyTree t parentAlias u h.1, hP.copyTrees ts parentAlias _ h.2⟩

end

mutual

theorem Lasting.mergeTree (hP : Lasting P) : ∀ (other own : RelationTree) (u : Supply),
    (∀ r ∈ own.preorder, P r) → (∀ r ∈ other.preorder, P r) →
      ∀ r ∈ (Relations.mergeTree own other u).value.preorder, P r
  | .node r kids, .node label children, u, hown, hother => by
    rw [Tree.preorder, List.forall_mem_cons] at hown hother
    rw [Relations.mergeTree, Tree.preorder, List.forall_mem_cons]
    refine ⟨?_, hP.mergeTrees kids label.aliasName children u hown.2 hother.2⟩
    exact hP.extended label _
      { Relation.Extends.refl label with columns := shown_uniteColumns label.columns r.columns } hown.1

theorem Lasting.mergeTrees (hP : Lasting P) :
    ∀ (others : List RelationTree) (parentAlias : String) (own : List RelationTree) (u : Supply),
      (∀ r ∈ Tree.preorderAll own, P r) → (∀ r ∈ Tree.preorderAll others, P r) →
        ∀ r ∈ Tree.preorderAll (Relations.mergeTrees parentAlias own others u).value, P r
  | [], _, _, _, hown, _ => hown
  | t :: ts, parentAlias, own, u, hown, hothers => by
    rw [Tree.preorderAll, List.forall_mem_append] at hothers
    rcases Relations.mergeTrees_cons parentAlias own t ts u with ⟨_, h⟩ |
      ⟨before, label, children, behind, rfl, _, ⟨_, h⟩ | ⟨join, hjoin, hplaced⟩⟩
    · rw [h]
      have hcopy := hP.copyTree t parentAlias u hothers.1
      refine hP.mergeTrees ts _ _ _ (fun r hr => ?_) hothers.2
      rcases Tree.mem_preorderAll_append.mp hr with hold | hnew
      · exact hown r hold
      · rw [Tree.preorderAll, Tree.preorderAll, List.append_nil] at hnew
        exact hcopy r hnew
    · rw [h]
      exact hown
    · rw [Tree.preorderAll_append, List.forall_mem_append, Tree.preorderAll,
        List.forall_mem_append, Tree.preorder, List.forall_mem_cons] at hown
      obtain ⟨hbefore, ⟨hlabel, hchildren⟩, hbehind⟩ := hown
      have hjoined : P { label with join } := hP.extended label _
        { Relation.Extends.refl label with join := commonJoin?_own hjoin } hlabel
      have hmerged := hP.mergeTree t (.node { label with join } children) u
        (List.forall_mem_cons.mpr ⟨hjoined, hchildren⟩) hothers.1
      have hset : ∀ r ∈ Tree.preorderAll (before ++ (Relations.mergeTree
          (.node { label with join } children) t u).value :: behind), P r := by
        rw [Tree.preorderAll_append, List.forall_mem_append, Tree.preorderAll,
          List.forall_mem_append]
        exact ⟨hbefore, hmerged, hbehind⟩
      rcases hplaced with ⟨_, _, h⟩ | ⟨_, h⟩
      · rw [h]
        exact hset
      · rw [h]
        exact hP.mergeTrees ts _ _ _ hset hothers.2

end

theorem Lasting.merge (hP : Lasting P) {own other : Relations} (hown : ∀ r ∈ own.all, P r)
    (hother : ∀ r ∈ other.all, P r) : ∀ r ∈ (own.merge other).value.all, P r := by
  unfold Relations.merge
  split
  · exact hP.mergeTree other.tree own.tree own.supply hown hother
  · exact hown

end Merges

section Anchoring

variable {s : Schema}

/-- Reading its key is nothing that a place loses by merges. -/
theorem lasting_readsKey (s : Schema) : Lasting (Relation.ReadsKey s) where
  extended before after hextends h := by
    intro hbound key hkey
    rw [Relation.isBound_of_kind hextends.kind] at hbound
    rw [hextends.table] at hkey
    obtain ⟨c, hc, hcolumn⟩ := h hbound key hkey
    have hshown := hextends.columns.subset (List.mem_map_of_mem hc)
    obtain ⟨d, hd, hsame⟩ := List.mem_map.mp hshown
    exact ⟨d, hd, (congrArg Prod.fst hsame).trans hcolumn⟩
  copied r copy htable hkind hcolumns h := by
    intro hbound key hkey
    rw [Relation.isBound_of_kind hkind] at hbound
    rw [htable] at hkey
    rw [hcolumns]
    exact h hbound key hkey

/-- Relations of outputs and paths, and what comes of merging them, whether the merges succeed or stop. -/
inductive Gathered (s : Schema) : Relations → Prop
  | resolved {relations : Relations} : Resolved s relations → Gathered s relations
  | merged {own other : Relations} : Gathered s own → Gathered s other →
    Gathered s (own.merge other).value

theorem readsKey_anchorKeys (s : Schema) (relations : Relations) :
    ∀ r ∈ (relations.anchorKeys s).all, r.ReadsKey s := by
  show ∀ r ∈ (relations.tree.map (Relation.anchorKey s)).preorder, r.ReadsKey s
  rw [Tree.preorder_map, List.forall_mem_map]
  exact fun r _ => r.readsKey_anchorKey s

theorem anchorKeys_of_readsKey {relations : Relations} (h : ∀ r ∈ relations.all, r.ReadsKey s) :
    relations.anchorKeys s = relations := by
  have hsame : relations.tree.map (Relation.anchorKey s) = relations.tree :=
    Tree.map_eq_self fun r hr => Relation.anchorKey_of_readsKey (h r hr)
  rw [anchorKeys, hsame]

theorem Resolved.readsKey {relations : Relations} (h : Resolved s relations) :
    ∀ r ∈ relations.all, r.ReadsKey s := by
  cases h with
  | output hschema _ h =>
    subst hschema
    obtain ⟨_, _, h⟩ := except_bind_ok.mp h
    cases h
    exact readsKey_anchorKeys _ _
  | path hschema _ h =>
    subst hschema
    obtain ⟨_, _, h⟩ := except_bind_ok.mp h
    cases h
    exact readsKey_anchorKeys _ _

theorem Gathered.readsKey {relations : Relations} (h : Gathered s relations) :
    ∀ r ∈ relations.all, r.ReadsKey s := by
  induction h with
  | resolved h => exact h.readsKey
  | merged _ _ ihOwn ihOther => exact (lasting_readsKey s).merge ihOwn ihOther

/-- A place that is visited before and after its key is anchored, with what is around it. -/
structure AnchoredVisit (s : Schema) (before after : Tree.Visit Relation) : Prop where
  label : before.label.Anchored s after.label
  ancestors : List.Forall₂ (Relation.Anchored s) before.ancestors after.ancestors
  children : List.Forall₂ (Relation.Anchored s) before.children after.children

theorem anchored_visits (s : Schema) (relations : Relations) :
    List.Forall₂ (AnchoredVisit s) relations.visits (relations.anchorKeys s).visits := by
  have hvisits : (relations.anchorKeys s).visits =
      relations.visits.map (Tree.Visit.map (Relation.anchorKey s)) :=
    Tree.visitsBelow_map (Relation.anchorKey s) relations.tree []
  have hall : ∀ rs : List Relation, List.Forall₂ (Relation.Anchored s) rs (rs.map (Relation.anchorKey s)) :=
    fun rs => List.forall₂_map_right_iff.mpr (List.forall₂_same.mpr fun r _ => r.anchored_anchorKey s)
  rw [hvisits, List.forall₂_map_right_iff, List.forall₂_same]
  exact fun v _ => ⟨v.label.anchored_anchorKey s, hall v.ancestors, hall v.children⟩

/-- Anchoring goes through all relations place by place. Where a place has a table of its own it comes to read
every column of the table's key, behind what it read before, and its mask names them in key order; the other
places, the tree around them and the names and numbers left to give stay as they are. Anchoring once more
changes nothing, and neither does anchoring relations that were merged from anchored ones. -/
theorem anchorKeys_complete (s : Schema) (relations : Relations) :
    List.Forall₂ (AnchoredVisit s) relations.visits (relations.anchorKeys s).visits ∧
      (relations.anchorKeys s).supply = relations.supply ∧
      (relations.anchorKeys s).anchorKeys s = relations.anchorKeys s ∧
      (Gathered s relations → relations.anchorKeys s = relations) := by
  refine ⟨anchored_visits s relations, rfl, ?_, ?_⟩
  · exact anchorKeys_of_readsKey (readsKey_anchorKeys s relations)
  · intro hgathered
    exact anchorKeys_of_readsKey hgathered.readsKey

/-- A department with its employees, whose department's number is shown under the name of their own. -/
def borrowedShapes : Shapes := .ofList [
  ⟨"Department", none, [⟨"Employee", .list (.shape "Employee"), false, default⟩]⟩,
  ⟨"Employee", none, [⟨"Id", .i32, false, { (default : Directives) with column := some "DepartmentId" }⟩]⟩]

/-- The relations of an output over a table of the office. -/
def officeOutput (schema : Schema) (root : String) (shapes : Shapes) : Option Relations :=
  (schema.findTable root).bind fun table =>
    (FieldTree.ofType "" (.shape root) shapes).toOption.bind fun output =>
      (Resolver.resolve ⟨schema, .exact, .warn⟩ table output).toOption

theorem resolved_officeOutput {root : String} {shapes : Shapes} {relations : Relations}
    (h : officeOutput s root shapes = some relations) : Resolved s relations := by
  obtain ⟨table, htable, h⟩ := Option.bind_eq_some_iff.mp h
  obtain ⟨output, _, h⟩ := Option.bind_eq_some_iff.mp h
  exact .output rfl (mem_of_findNamed htable) (ok_of_toOption h)

/-- The employees' own number goes by a marked name, and still does when their relations along a path are
merged in, where it goes by its own. -/
theorem anchorKeys_complete_borrowed : ∃ schema own extra,
    Schema.build officeDeclarations = .ok schema ∧
      officeOutput schema "Department" borrowedShapes = some own ∧
      officeWalk schema "Department" ["EMPLOYEE"] = some extra ∧
      (extra.keyMasks schema).map Prod.snd = [["Id"], ["Id"]] ∧
      ((own.merge extra).value.keyMasks schema).map Prod.snd = [["Id"], ["__pk_Id"]] ∧
      List.Forall₂ (AnchoredVisit schema) (own.merge extra).value.visits
        ((own.merge extra).value.anchorKeys schema).visits ∧
      (own.merge extra).value.anchorKeys schema = (own.merge extra).value := by
  have htest : ((Schema.build officeDeclarations).toOption.any fun schema =>
      (officeOutput schema "Department" borrowedShapes).any fun own =>
        (officeWalk schema "Department" ["EMPLOYEE"]).any fun extra =>
          decide ((extra.keyMasks schema).map Prod.snd = [["Id"], ["Id"]]) &&
            decide (((own.merge extra).value.keyMasks schema).map Prod.snd = [["Id"], ["__pk_Id"]])) =
        true := by
    decide +kernel
  obtain ⟨schema, hschema, htest⟩ := exists_ok_of_any htest
  simp only [Option.any_eq_true, Bool.and_eq_true, decide_eq_true_eq] at htest
  obtain ⟨own, hown, extra, hextra, hmask, hmerged⟩ := htest
  have hgathered : Gathered schema (own.merge extra).value :=
    .merged (.resolved (resolved_officeOutput hown)) (.resolved (resolved_officeWalk hextra))
  obtain ⟨hvisits, _, _, hstays⟩ := anchorKeys_complete schema (own.merge extra).value
  exact ⟨schema, own, extra, hschema, hown, hextra, hmask, hmerged, hvisits, hstays hgathered⟩

end Anchoring

end Relations

end ShapeSql
