import Mathlib.Data.List.Perm.Basic
import ShapeSql.Proofs.Plan.Names
import ShapeSql.Proofs.Relation.Placed

namespace ShapeSql

/-- The name of a relation's own row source, in small letters; an embedded place has none. -/
def Relation.rowName? (r : Relation) : Option String :=
  if r.isEmbedded then none else some (lowerAscii r.aliasName)

/-- What a relation takes of a supply. -/
def Relation.stamp (r : Relation) : Nat × Option String := (r.id, r.rowName?)

theorem Relation.isEmbedded_iff {r : Relation} : r.isEmbedded = true ↔ r.kind = .embedded := by
  cases hkind : r.kind <;> simp [isEmbedded, hkind]

/-- Other than the root, a relation is joined unless it is embedded. -/
theorem Relation.isJoined_eq {r : Relation} (hroot : r.kind ≠ .root) :
    r.isJoined = !r.isEmbedded := by
  cases hkind : r.kind with
  | root => exact absurd hkind hroot
  | embedded | navigation _ | junction | hop => simp [isJoined, isEmbedded, hkind]

theorem nodup_filterMap_inj {α β : Type} {f : α → Option β} {items : List α}
    (h : (items.filterMap f).Nodup) {a b : α} (ha : a ∈ items) (hb : b ∈ items) {x : β}
    (hfa : f a = some x) (hfb : f b = some x) : a = b := by
  induction items with
  | nil => cases ha
  | cons first rest ih =>
    have hmem : ∀ c ∈ rest, f c = some x → x ∈ rest.filterMap f :=
      fun c hc hfc => List.mem_filterMap.mpr ⟨c, hc, hfc⟩
    have hrest : (rest.filterMap f).Nodup := by
      rw [List.filterMap_cons] at h
      split at h
      · exact h
      · exact h.of_cons
    have hfirst : f first = some x → x ∉ rest.filterMap f := by
      intro hx
      rw [List.filterMap_cons, hx] at h
      exact (List.nodup_cons.mp h).1
    rcases List.mem_cons.mp ha with rfl | harest
    · rcases List.mem_cons.mp hb with rfl | hbrest
      · rfl
      · exact absurd (hmem b hbrest hfb) (hfirst hfa)
    · rcases List.mem_cons.mp hb with rfl | hbrest
      · exact absurd (hmem a harest hfa) (hfirst hfb)
      · exact ih hrest harest hbrest

namespace Supply

/-- The spellings tried for a name that is in use. -/
theorem lower_numbered_injective (desired : String) :
    Function.Injective fun n : Nat => lowerAscii s!"{desired}_{n}" := by
  intro m n hmn
  have htext : ∀ k : Nat, (lowerAscii s!"{desired}_{k}").toList =
      (lowerAscii desired).toList ++ '_' :: digits k := by
    intro k
    have hplain : s!"{desired}_{k}".toList = desired.toList ++ '_' :: digits k := by
      change (desired ++ "_" ++ Nat.repr k).toList = _
      rw [String.toList_append, String.toList_append, Nat.toList_repr, List.append_assoc]
      rfl
    rw [toList_lowerAscii, toList_lowerAscii, hplain, List.map_append, List.map_cons,
      map_toLower_digits]
    rfl
  have hlists := congrArg String.toList hmn
  simp only [htext] at hlists
  exact digits_injective (List.cons.inj (List.append_cancel_left hlists)).2

/-- There are more spellings than names in use, so one of them is free. -/
theorem freeAlias_free (u : Supply) (desired : String) :
    lowerAscii (u.freeAlias desired) ∉ u.aliases := by
  have hfree : (!u.aliases.contains (lowerAscii (u.freeAlias desired))) = true := by
    refine @firstFree_isFree (fun name => !u.aliases.contains (lowerAscii name)) _ _ _ ?_
    by_contra hnone
    have hall : (List.range (u.aliases.length + 1)).map
        (fun k => lowerAscii s!"{desired}_{k + 2}") ⊆ u.aliases := by
      intro name hname
      obtain ⟨k, hk, rfl⟩ := List.mem_map.mp hname
      by_contra hnot
      exact hnone ⟨k, List.mem_range.mp hk, by simpa using hnot⟩
    have hnodup : ((List.range (u.aliases.length + 1)).map
        fun k => lowerAscii s!"{desired}_{k + 2}").Nodup := by
      apply List.Nodup.map _ List.nodup_range
      intro j k hjk
      have := lower_numbered_injective desired hjk
      omega
    have hlength := (List.subperm_of_subset hnodup hall).length_le
    rw [List.length_map, List.length_range] at hlength
    omega
  simpa using hfree

/-- The stamps were given out between two states of a supply, all of them and none twice. -/
structure Gives (u u' : Supply) (stamps : List (Nat × Option String)) : Prop where
  count : u'.next = u.next + stamps.length
  aliases : u.aliases ⊆ u'.aliases
  ids : (stamps.map Prod.fst).Nodup
  within : ∀ id ∈ stamps.map Prod.fst, u.next ≤ id ∧ id < u'.next
  names : (stamps.filterMap Prod.snd).Nodup
  fresh : ∀ name ∈ stamps.filterMap Prod.snd, name ∉ u.aliases ∧ name ∈ u'.aliases

variable {u u' u'' : Supply} {xs ys : List (Nat × Option String)}

theorem Gives.next (h : u.Gives u' xs) : u.next ≤ u'.next := h.count ▸ Nat.le_add_right _ _

theorem Gives.nil (u : Supply) : u.Gives u [] where
  count := rfl
  aliases := List.Subset.refl _
  ids := List.nodup_nil
  within := nofun
  names := List.nodup_nil
  fresh := nofun

theorem Gives.append (hxs : u.Gives u' xs) (hys : u'.Gives u'' ys) : u.Gives u'' (xs ++ ys) where
  count := by rw [hys.count, hxs.count, List.length_append, Nat.add_assoc]
  aliases := List.Subset.trans hxs.aliases hys.aliases
  ids := by
    rw [List.map_append]
    refine List.nodup_append.mpr ⟨hxs.ids, hys.ids, ?_⟩
    intro x hx y hy
    have hbelow := (hxs.within x hx).2
    have habove := (hys.within y hy).1
    omega
  within := by
    intro id hid
    rw [List.map_append] at hid
    have hfirst := hxs.next
    have hsecond := hys.next
    rcases List.mem_append.mp hid with hx | hy
    · have := hxs.within id hx
      omega
    · have := hys.within id hy
      omega
  names := by
    rw [List.filterMap_append]
    refine List.nodup_append.mpr ⟨hxs.names, hys.names, ?_⟩
    rintro x hx _ hy rfl
    exact (hys.fresh x hy).1 (hxs.fresh x hx).2
  fresh := by
    intro name hname
    rw [List.filterMap_append] at hname
    rcases List.mem_append.mp hname with hx | hy
    · obtain ⟨hnew, hgiven⟩ := hxs.fresh name hx
      exact ⟨hnew, hys.aliases hgiven⟩
    · obtain ⟨hnew, hgiven⟩ := hys.fresh name hy
      exact ⟨fun hold => hnew (hxs.aliases hold), hgiven⟩

/-- The order in which stamps stand does not matter. -/
theorem Gives.perm (h : u.Gives u' xs) (hperm : xs.Perm ys) : u.Gives u' ys where
  count := hperm.length_eq ▸ h.count
  aliases := h.aliases
  ids := (hperm.map Prod.fst).nodup_iff.mp h.ids
  within := fun id hid => h.within id ((hperm.map Prod.fst).mem_iff.mpr hid)
  names := (hperm.filterMap Prod.snd).nodup_iff.mp h.names
  fresh := fun name hname => h.fresh name ((hperm.filterMap Prod.snd).mem_iff.mpr hname)

/-- A new relation takes the next number, and a free name if it asks for one; only an embedded place
does not. -/
theorem gives_relation (u : Supply) (table : TableId) (name : String) (path : Path)
    (join : List JoinPair) (kind : RelationKind) (desired : Option String) (parentAlias : String)
    (hkind : kind = .embedded ↔ desired = none) :
    u.Gives (u.relation table name path join kind desired parentAlias).2
      [(u.relation table name path join kind desired parentAlias).1.stamp] := by
  cases desired with
  | none =>
    have hembedded : kind = .embedded := hkind.mpr rfl
    exact {
      count := rfl
      aliases := List.Subset.refl _
      ids := List.nodup_singleton _
      within := by
        intro id hid
        rw [List.map_singleton, List.mem_singleton] at hid
        rw [hid]
        exact ⟨Nat.le_refl _, Nat.lt_succ_self _⟩
      names := by simp [relation, Relation.stamp, Relation.rowName?, Relation.isEmbedded, hembedded]
      fresh := by simp [relation, Relation.stamp, Relation.rowName?, Relation.isEmbedded, hembedded] }
  | some desired =>
    have hnot : kind ≠ .embedded := fun heq => nomatch hkind.mp heq
    have hstamp : (u.relation table name path join kind (some desired) parentAlias).1.stamp =
        (u.next, some (lowerAscii (u.freeAlias desired))) := by
      cases kind with
      | embedded => exact absurd rfl hnot
      | root | navigation _ | junction | hop => rfl
    rw [hstamp]
    exact {
      count := rfl
      aliases := List.subset_cons_self _ _
      ids := List.nodup_singleton _
      within := by
        intro id hid
        rw [List.map_singleton, List.mem_singleton] at hid
        rw [hid]
        exact ⟨Nat.le_refl _, Nat.lt_succ_self _⟩
      names := List.nodup_singleton _
      fresh := by
        intro name hname
        have hsame : name = lowerAscii (u.freeAlias desired) := List.mem_singleton.mp hname
        rw [hsame]
        exact ⟨u.freeAlias_free desired, List.mem_cons_self⟩ }

end Supply

/-- What the relations of trees take of a supply. -/
def stamps (trees : List RelationTree) : List (Nat × Option String) :=
  (Tree.preorderAll trees).map Relation.stamp

@[simp] theorem stamps_nil : stamps [] = [] := rfl

@[simp] theorem stamps_node (label : Relation) (kids trees : List RelationTree) :
    stamps (.node label kids :: trees) = label.stamp :: (stamps kids ++ stamps trees) := by
  simp [stamps, Tree.preorderAll, Tree.preorder]

@[simp] theorem stamps_append (xs ys : List RelationTree) :
    stamps (xs ++ ys) = stamps xs ++ stamps ys := by
  simp [stamps, Tree.preorderAll_eq_flatMap]

/-- Only an embedded place asks for no name. -/
theorem Step.desiredAlias_eq_none (s : Step) (path : Path) :
    s.kind = .embedded ↔ s.desiredAlias path = none := by
  unfold desiredAlias
  cases s.kind with
  | embedded => exact ⟨fun _ => rfl, fun _ => rfl⟩
  | root | navigation _ | junction | hop => exact ⟨nofun, nofun⟩

theorem Resolving.setUp_gives {name : String} {path : Path} {parentAlias : String}
    {steps : List Step} {u u' : Supply} {places : List Relation}
    (hrun : (setUp name path parentAlias steps).run u = .ok (places, u')) :
    u.Gives u' (places.map Relation.stamp) := by
  induction steps generalizing parentAlias u places with
  | nil =>
    rw [setUp, run_pure_ok] at hrun
    obtain ⟨rfl, rfl⟩ := hrun
    exact .nil u
  | cons step rest ih =>
    simp only [setUp, run_bind_ok, run_pure_ok, run_modifyGet_ok] at hrun
    obtain ⟨relation, between, hrelation, others, after, hothers, rfl, rfl⟩ := hrun
    have hfirst := u.gives_relation step.table.id name path step.join step.kind
      (step.desiredAlias path) parentAlias (step.desiredAlias_eq_none path)
    rw [hrelation] at hfirst
    exact hfirst.append (ih hothers)

/-- Nesting places above others keeps the stamps of both. -/
theorem stamps_nested (columns : List ProjectedColumn) (kids : List RelationTree)
    (places : List Relation) :
    stamps (nested columns kids places) = places.map Relation.stamp ++ stamps kids := by
  induction places with
  | nil => rfl
  | cons r rest ih =>
    cases rest with
    | nil =>
      rw [nested, stamps_node, stamps_nil, List.append_nil]
      rfl
    | cons second rest =>
      have hnested : nested columns kids (r :: second :: rest) =
          [.node r (nested columns kids (second :: rest))] := rfl
      rw [hnested, stamps_node, stamps_nil, List.append_nil, ih]
      rfl

namespace Resolver

variable {r : Resolver}

mutual

theorem resolveField_gives : ∀ (t : FieldTree) {table : Table} {aliasName : String}
    {columns : List ProjectedColumn} {u u' : Supply}
    {result : List ProjectedColumn × List RelationTree},
    (r.resolveField table aliasName columns t).run u = .ok (result, u') →
      u.Gives u' (stamps result.2)
  | .node field kids, table, aliasName, columns, u, u', result, hrun => by
    cases resolves_of_resolveField hrun with
    | excluded | scalar | cyclic => exact .nil _
    | places _ _ _ _ hplaces hbelow =>
      rw [stamps_nested]
      exact (Resolving.setUp_gives hplaces).append (resolveFields_gives kids hbelow)

theorem resolveFields_gives : ∀ (ts : List FieldTree) {table : Table} {aliasName : String}
    {columns : List ProjectedColumn} {u u' : Supply}
    {result : List ProjectedColumn × List RelationTree},
    (r.resolveFields table aliasName columns ts).run u = .ok (result, u') →
      u.Gives u' (stamps result.2)
  | [], table, aliasName, columns, u, u', result, hrun => by
    rw [resolveFields, run_pure_ok] at hrun
    obtain ⟨rfl, rfl⟩ := hrun
    exact .nil u
  | t :: ts, table, aliasName, columns, u, u', result, hrun => by
    simp only [resolveFields, run_bind_ok, run_pure_ok] at hrun
    obtain ⟨⟨_, first⟩, between, hfirst, ⟨_, others⟩, after, hothers, rfl, rfl⟩ := hrun
    rw [stamps_append]
    exact (resolveField_gives t hfirst).append (resolveFields_gives ts hothers)

end

theorem resolveSteps_gives {steps : List String} {table : Table} {aliasName : String} {walked : Path}
    {u u' : Supply} {trees : List RelationTree}
    (hrun : (r.resolveSteps table aliasName walked steps).run u = .ok (trees, u')) :
    u.Gives u' (stamps trees) := by
  induction steps generalizing table aliasName walked u trees with
  | nil =>
    rw [resolveSteps, run_pure_ok] at hrun
    obtain ⟨rfl, rfl⟩ := hrun
    exact .nil u
  | cons step rest ih =>
    obtain ⟨_, _, places, between, below, _, _, hplaces, hbelow, rfl⟩ := resolveSteps_cons hrun
    rw [stamps_nested]
    exact (Resolving.setUp_gives hplaces).append (ih hbelow)

end Resolver

namespace Relations

/-- Copying gives each place of the tree a new stamp. -/
theorem copied_kind (r : Relation) :
    r.kind = .embedded ↔ (if r.isEmbedded then none else some r.aliasName) = none := by
  cases hkind : r.kind with
  | embedded => simp [Relation.isEmbedded, hkind]
  | root | navigation _ | junction | hop => simp [Relation.isEmbedded, hkind]

mutual

theorem copyTree_gives : ∀ (t : RelationTree) (parentAlias : String) (u : Supply),
    u.Gives (copyTree parentAlias t u).2 (stamps [(copyTree parentAlias t u).1])
  | .node r kids, parentAlias, u => by
    rw [copyTree, stamps_node, stamps_nil, List.append_nil]
    have hlabel := u.gives_relation r.table r.name r.path r.join r.kind
      (if r.isEmbedded then none else some r.aliasName) parentAlias (copied_kind r)
    exact hlabel.append (copyTrees_gives kids _ _)

theorem copyTrees_gives : ∀ (ts : List RelationTree) (parentAlias : String) (u : Supply),
    u.Gives (copyTrees parentAlias ts u).2 (stamps (copyTrees parentAlias ts u).1)
  | [], _, u => .nil u
  | t :: ts, parentAlias, u => by
    have hfirst := copyTree_gives t parentAlias u
    have hrest := copyTrees_gives ts parentAlias (copyTree parentAlias t u).2
    have hcons : ∀ (x : RelationTree) (xs : List RelationTree),
        stamps (x :: xs) = stamps [x] ++ stamps xs := fun x xs => stamps_append [x] xs
    rw [copyTrees, hcons]
    exact hfirst.append hrest

end

/-- Replacing one tree of a forest replaces its stamps. -/
theorem stamps_replace {c c' : RelationTree} {new : List (Nat × Option String)}
    (h : (stamps [c']).Perm (stamps [c] ++ new)) (before behind : List RelationTree) :
    (stamps (before ++ c' :: behind)).Perm (stamps (before ++ c :: behind) ++ new) := by
  have hsplit : ∀ x : RelationTree,
      stamps (before ++ x :: behind) = stamps before ++ (stamps [x] ++ stamps behind) :=
    fun x => (stamps_append before _).trans (congrArg (stamps before ++ ·) (stamps_append [x] behind))
  have hswap : (stamps [c] ++ new ++ stamps behind).Perm (stamps [c] ++ stamps behind ++ new) := by
    rw [List.append_assoc, List.append_assoc]
    exact List.perm_append_comm.append_left _
  rw [hsplit, hsplit, List.append_assoc]
  exact ((h.append_right _).trans hswap).append_left _

/-- The stamps of a merge are those of the one side and new ones. -/
def Adds (u u' : Supply) (before after : List RelationTree) : Prop :=
  ∃ new, u.Gives u' new ∧ (stamps after).Perm (stamps before ++ new)

mutual

theorem mergeTree_adds : ∀ (other own : RelationTree) (u : Supply),
    Adds u (mergeTree own other u).supply [own] [(mergeTree own other u).value]
  | .node r kids, own, u => by
    obtain ⟨label, children⟩ := own
    obtain ⟨new, hnew, hperm⟩ := mergeTrees_adds kids label.aliasName children u
    refine ⟨new, hnew, ?_⟩
    rw [mergeTree, stamps_node, stamps_nil, List.append_nil, stamps_node, stamps_nil,
      List.append_nil]
    exact hperm.cons _

theorem mergeTrees_adds : ∀ (others : List RelationTree) (parentAlias : String)
    (own : List RelationTree) (u : Supply),
    Adds u (mergeTrees parentAlias own others u).supply own
      (mergeTrees parentAlias own others u).value
  | [], _, own, u => ⟨[], .nil u, by simp [mergeTrees]⟩
  | t :: ts, parentAlias, own, u => by
    rcases mergeTrees_cons parentAlias own t ts u with ⟨_, h⟩ |
      ⟨before, label, children, behind, rfl, _, ⟨_, h⟩ | ⟨join, _, hplaced⟩⟩
    · rw [h]
      obtain ⟨new, hnew, hperm⟩ := mergeTrees_adds ts parentAlias
        (own ++ [(copyTree parentAlias t u).1]) (copyTree parentAlias t u).2
      refine ⟨stamps [(copyTree parentAlias t u).1] ++ new,
        (copyTree_gives t parentAlias u).append hnew, ?_⟩
      rw [stamps_append, List.append_assoc] at hperm
      exact hperm
    · rw [h]
      exact ⟨[], .nil u, by simp⟩
    · obtain ⟨new, hnew, hperm⟩ := mergeTree_adds t (.node { label with join } children) u
      have hlabel : stamps [.node { label with join } children] = stamps [.node label children] := by
        rw [stamps_node, stamps_node]
        rfl
      rw [hlabel] at hperm
      have hset := stamps_replace hperm before behind
      rcases hplaced with ⟨_, _, h⟩ | ⟨_, h⟩
      · rw [h]
        exact ⟨new, hnew, hset⟩
      · rw [h]
        obtain ⟨more, hmore, hrest⟩ := mergeTrees_adds ts parentAlias _ _
        refine ⟨new ++ more, hnew.append hmore, ?_⟩
        rw [← List.append_assoc]
        exact hrest.trans (hset.append_right _)

end

/-- The numbers of the relations are distinct, and so are the names. -/
structure Numbered (relations : Relations) : Prop where
  ids : (relations.all.map Relation.id).Nodup
  names : (relations.all.filterMap Relation.rowName?).Nodup

/-- Two relations with row sources of their own have different names. -/
theorem Numbered.eq_of_sameName {relations : Relations} (h : relations.Numbered) {r q : Relation}
    (hr : r ∈ relations.all) (hq : q ∈ relations.all) (hown : r.isEmbedded = false)
    (hqown : q.isEmbedded = false) (hname : sameName r.aliasName q.aliasName = true) : r = q := by
  apply nodup_filterMap_inj h.names hr hq (x := lowerAscii r.aliasName)
  · simp [Relation.rowName?, hown]
  · have hlower : lowerAscii r.aliasName = lowerAscii q.aliasName := by
      simpa [sameName] using hname
    simp [Relation.rowName?, hqown, hlower]

/-- All numbers and names of the relations were given out by their supply. -/
def Given (relations : Relations) : Prop :=
  Supply.Gives ⟨[], 0⟩ relations.supply (relations.all.map Relation.stamp)

theorem stamps_tree (relations : Relations) :
    stamps [relations.tree] = relations.all.map Relation.stamp := by
  simp [stamps, all, Tree.preorderAll]

theorem Given.numbered {relations : Relations} (h : relations.Given) : relations.Numbered := by
  have hids : (relations.all.map Relation.stamp).map Prod.fst = relations.all.map Relation.id := by
    rw [List.map_map]
    rfl
  have hnames : (relations.all.map Relation.stamp).filterMap Prod.snd =
      relations.all.filterMap Relation.rowName? := by
    rw [List.filterMap_map]
    rfl
  exact ⟨hids ▸ h.ids, hnames ▸ h.names⟩

/-- The target table takes the first number and its own name. -/
theorem given_ofTable (table : Table) : (ofTable table).Given where
  count := rfl
  aliases := nofun
  ids := List.nodup_singleton _
  within := by
    intro id hid
    have hzero : id = 0 := List.mem_singleton.mp hid
    rw [hzero]
    exact ⟨Nat.le_refl _, Nat.zero_lt_one⟩
  names := List.nodup_singleton _
  fresh := by
    intro name hname
    have hsame : name = lowerAscii table.name := List.mem_singleton.mp hname
    rw [hsame]
    exact ⟨nofun, List.mem_singleton.mpr rfl⟩

/-- Places below the target table, under names of their own. -/
theorem given_below {table : Table} {columns : List ProjectedColumn} {kids : List RelationTree}
    {supply : Supply} (h : (ofTable table).supply.Gives supply (stamps kids)) :
    Given ⟨.node { (ofTable table).root with columns } kids, supply⟩ := by
  have hall := (given_ofTable table).append h
  rw [Given, ← stamps_tree, stamps_node, stamps_nil, List.append_nil]
  exact hall

/-- Projecting keys leaves numbers and names as they are. -/
theorem Given.anchorKeys {relations : Relations} (h : relations.Given) (s : Schema) :
    (relations.anchorKeys s).Given := by
  have hall : (relations.anchorKeys s).all.map Relation.stamp =
      relations.all.map Relation.stamp := by
    rw [all, Relations.anchorKeys, Tree.preorder_map, List.map_map]
    apply List.map_congr_left
    intro r _
    rw [Function.comp_apply, Relation.anchorKey]
    split
    · rfl
    · rfl
  rw [Given, hall]
  exact h

/-- Merging keeps this, also where it stops halfway. -/
theorem Given.merge {own : Relations} (h : own.Given) (other : Relations) :
    (own.merge other).value.Given := by
  unfold Relations.merge
  split
  · obtain ⟨new, hnew, hperm⟩ := mergeTree_adds other.tree own.tree own.supply
    rw [Given, ← stamps_tree] at h ⊢
    exact (h.append hnew).perm hperm.symm
  · exact h

end Relations

namespace Resolver

variable {r : Resolver}

theorem resolve_given {table : Table} {output : FieldTree} {relations : Relations}
    (h : r.resolve table output = .ok relations) : relations.Given := by
  obtain ⟨columns, kids, supply, hrun, rfl⟩ := resolve_inv h
  exact (Relations.given_below (resolveFields_gives output.children hrun)).anchorKeys _

end Resolver

end ShapeSql
