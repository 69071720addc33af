import ShapeSql.Proofs.Relation.Ways

/-!
Merging relations is a union. A merge unites both sides way by way and fails exactly where they hold
different joins, so it does not depend on the order of its sides, and relations merged with themselves
stay as they are. Trees that have the same at the end of every way are the same but for the order of
siblings and for what ways do not show: numbers, names of row sources and the case of names.
-/

namespace ShapeSql.Relations

section Merge

/-- Nowhere below do two sides hold different joins. -/
def Compatible (own others : List RelationTree) : Prop :=
  ∀ key way, Agree (contentBelow own key way) (contentBelow others key way)

/-- A merge of siblings succeeds where they are compatible, and unites them. -/
structure Merges (own others : List RelationTree) (m : Merged (List RelationTree)) : Prop where
  ok : m.failure = none ↔ Compatible own others
  united : m.failure = none → ∀ key way,
    contentBelow m.value key way = unite (contentBelow own key way) (contentBelow others key way)
  siblings : m.failure = none → Siblings m.value

/-- One more tree is united with the siblings, and the others stay as they are. -/
structure Taken (own : List RelationTree) (t : RelationTree) (after : List RelationTree) : Prop where
  there : ∀ way, contentBelow after t.label.key way =
    unite (contentBelow own t.label.key way) (contentAt way t)
  elsewhere : ∀ key, key ≠ t.label.key → ∀ way, contentBelow after key way = contentBelow own key way

variable {own ts after : List RelationTree} {t : RelationTree} {m : Merged (List RelationTree)}

theorem Merges.of_taken (htaken : Taken own t after)
    (hagree : ∀ way, Agree (contentBelow own t.label.key way) (contentAt way t))
    (hnew : t.label.key ∉ keys ts) (h : Merges after ts m) : Merges own (t :: ts) m := by
  refine ⟨h.ok.trans ⟨fun hcompatible key way => ?_, fun hcompatible key way => ?_⟩,
    fun hok key way => ?_, h.siblings⟩
  · by_cases hkey : key = t.label.key
    · rw [hkey, contentBelow_cons_self]
      exact hagree way
    · rw [contentBelow_cons_of_ne hkey, ← htaken.elsewhere key hkey way]
      exact hcompatible key way
  · by_cases hkey : key = t.label.key
    · rw [hkey, contentBelow_eq_none hnew]
      exact agree_none _
    · rw [htaken.elsewhere key hkey way, ← contentBelow_cons_of_ne hkey ts way]
      exact hcompatible key way
  · rw [h.united hok key way]
    by_cases hkey : key = t.label.key
    · rw [hkey, contentBelow_eq_none hnew, unite_none, contentBelow_cons_self, htaken.there]
    · rw [htaken.elsewhere key hkey way, contentBelow_cons_of_ne hkey]

theorem Merges.of_refused (hfailed : m.failure ≠ none)
    (hrefused : ¬∀ way, Agree (contentBelow own t.label.key way) (contentAt way t)) :
    Merges own (t :: ts) m := by
  refine ⟨iff_of_false hfailed fun hcompatible => hrefused fun way => ?_, fun hok => absurd hok hfailed,
    fun hok => absurd hok hfailed⟩
  rw [← contentBelow_cons_self t ts way]
  exact hcompatible _ way

/-- A tree of a new key is copied beside the siblings. -/
theorem taken_copy (hnew : t.label.key ∉ keys own) {copy : RelationTree} (hcopy : CopyOf t copy) :
    Taken own t (own ++ [copy]) := by
  refine ⟨fun way => ?_, fun key hkey way => ?_⟩
  · rw [contentBelow_eq_none hnew, unite, contentBelow, childAt_append, childAt_eq_none.mpr hnew,
      Option.none_or, childAt_cons, if_pos hcopy.key, Option.bind_some, hcopy.content]
  · have hother : copy.label.key ≠ key := fun hsame => hkey (hsame.symm.trans hcopy.key)
    rw [contentBelow, childAt_append, childAt_cons, if_neg hother]
    show ((childAt own key).or none).bind (contentAt way) = contentBelow own key way
    rw [Option.or_none, contentBelow]

/-- A tree of a known key is united with the one that has it. -/
theorem taken_replace {before behind : List RelationTree} {c united : RelationTree}
    (hsame : c.label.key = t.label.key) (hkey : united.label.key = c.label.key)
    (hnew : c.label.key ∉ keys before)
    (hunited : ∀ way, contentAt way united = unite (contentAt way c) (contentAt way t)) :
    Taken (before ++ c :: behind) t (before ++ united :: behind) := by
  have hthere : ∀ way, contentBelow (before ++ c :: behind) c.label.key way = contentAt way c := by
    intro way
    rw [contentBelow, childAt_append, childAt_eq_none.mpr hnew, Option.none_or, childAt_cons,
      if_pos rfl, Option.bind_some]
  refine ⟨fun way => ?_, fun key hother way => ?_⟩
  · rw [← hsame, hthere, contentBelow, childAt_replace hkey hnew, if_pos rfl, Option.bind_some, hunited]
  · rw [contentBelow, childAt_replace hkey hnew, if_neg (hsame ▸ hother), contentBelow]

theorem siblings_replace {before behind : List RelationTree} {c united : RelationTree}
    (h : Siblings (before ++ c :: behind)) (hkey : united.label.key = c.label.key)
    (hunited : SiblingsApart united) : Siblings (before ++ united :: behind) := by
  obtain ⟨hbefore, hrest, hapart⟩ := siblings_append.mp h
  obtain ⟨hnew, _, hbehind⟩ := siblings_cons.mp hrest
  refine siblings_append.mpr ⟨hbefore, siblings_cons.mpr ⟨hkey ▸ hnew, hunited, hbehind⟩, ?_⟩
  intro key hmem hlater
  refine hapart key hmem ?_
  rw [keys, List.map_cons, hkey] at hlater
  exact hlater

theorem siblings_snoc (h : Siblings own) (ht : SiblingsApart t) (hnew : t.label.key ∉ keys own) :
    Siblings (own ++ [t]) := by
  refine siblings_append.mpr ⟨h, siblings_cons.mpr ⟨List.not_mem_nil, ht, List.nodup_nil,
    List.forall_mem_nil _⟩, fun key hkey hlast => ?_⟩
  rw [keys, List.map_singleton, List.mem_singleton] at hlast
  exact hnew (hlast ▸ hkey)

/-- A place with united columns, a common join and united siblings below is united at every way. -/
theorem contentAt_united {c united : RelationTree} {join : List JoinPair}
    (hlabel : united.label =
      { c.label with join, columns := uniteColumns c.label.columns t.label.columns })
    (hjoin : join = if c.label.join = [] then t.label.join else c.label.join)
    (hbelow : ∀ key way, contentBelow united.children key way =
      unite (contentBelow c.children key way) (contentBelow t.children key way)) :
    ∀ way, contentAt way united = unite (contentAt way c) (contentAt way t) := by
  intro way
  cases way with
  | nil =>
    have hnames := names_uniteColumns c.label.columns t.label.columns
    rw [contentAt, hlabel, hjoin]
    exact congrArg (fun names => some (Content.mk _ names)) hnames
  | cons key way => exact hbelow key way

theorem not_mem_keys_of_matching {own : List RelationTree}
    (h : ∀ c ∈ own, matching c.label t.label = false) : t.label.key ∉ keys own := by
  intro hmem
  obtain ⟨c, hc, hkey⟩ := List.mem_map.mp hmem
  exact Bool.noConfusion ((h c hc).symm.trans (matching_iff_key.mpr hkey))

theorem contentBelow_split {before behind : List RelationTree} {c : RelationTree}
    (h : c.label.key ∉ keys before) (way : List PlaceKey) :
    contentBelow (before ++ c :: behind) c.label.key way = contentAt way c := by
  rw [contentBelow, childAt_append, childAt_eq_none.mpr h, Option.none_or, childAt_cons, if_pos rfl,
    Option.bind_some]

mutual

theorem mergeTree_merges : ∀ (other own : RelationTree) (u : Supply), SiblingsApart own →
    SiblingsApart other →
    (mergeTree own other u).value.label =
        { own.label with columns := uniteColumns own.label.columns other.label.columns } ∧
      Merges own.children other.children ⟨(mergeTree own other u).value.children,
        (mergeTree own other u).supply, (mergeTree own other u).failure⟩
  | .node r kids, own, u, hown, hother => by
    rw [mergeTree]
    exact ⟨rfl, mergeTrees_merges kids own.label.aliasName own.children u hown.siblings hother.siblings⟩

theorem mergeTrees_merges : ∀ (others : List RelationTree) (parentAlias : String)
    (own : List RelationTree) (u : Supply), Siblings own → Siblings others →
      Merges own others (mergeTrees parentAlias own others u)
  | [], parentAlias, own, u, hown, _ => by
    rw [mergeTrees]
    exact ⟨iff_of_true rfl fun key way => agree_none _, fun _ key way => (unite_none _).symm,
      fun _ => hown⟩
  | t :: ts, parentAlias, own, u, hown, hothers => by
    obtain ⟨hnew, ht, hts⟩ := siblings_cons.mp hothers
    rcases mergeTrees_cons parentAlias own t ts u with ⟨hnone, h⟩ |
      ⟨before, label, children, behind, rfl, hmatching, hplaced⟩
    · rw [h]
      have hfresh := not_mem_keys_of_matching hnone
      have hcopy := copyTree_copies t parentAlias u
      have hagree : ∀ way, Agree (contentBelow own t.label.key way) (contentAt way t) := by
        intro way
        rw [contentBelow_eq_none hfresh]
        trivial
      refine .of_taken (taken_copy hfresh hcopy) hagree hnew (mergeTrees_merges ts _ _ _ ?_ hts)
      exact siblings_snoc hown (hcopy.apart ht) (hcopy.key ▸ hfresh)
    · have hsame := matching_iff_key.mp hmatching
      obtain ⟨hbefore, hrest, hapart⟩ := siblings_append.mp hown
      obtain ⟨_, hc, _⟩ := siblings_cons.mp hrest
      have hfirst : label.key ∉ keys before := fun hmem => hapart _ hmem List.mem_cons_self
      have hthere : ∀ way, contentBelow (before ++ .node label children :: behind) t.label.key way =
          contentAt way (.node label children) := by
        intro way
        rw [← hsame]
        exact contentBelow_split (c := .node label children) hfirst way
      rcases hplaced with ⟨hjoin, h⟩ | ⟨join, hjoin, hplaced⟩
      · rw [commonJoin?_eq] at hjoin
        rw [h]
        refine .of_refused nofun fun hagree => ?_
        have hhere := hagree []
        rw [hthere] at hhere
        cases hjoin.symm.trans (if_pos hhere)
      · rw [commonJoin?_eq] at hjoin
        have hjoined : SiblingsApart (.node { label with join } children) := .of_siblings hc.siblings
        obtain ⟨hlabel, hmerges⟩ := mergeTree_merges t (.node { label with join } children) u hjoined ht
        split at hjoin
        · rename_i hhere
          have hjoin := (Option.some.inj hjoin).symm
          rcases hplaced with ⟨failure, hfailure, h⟩ | ⟨hok, h⟩
          · rw [h]
            refine .of_refused (Option.some_ne_none failure) fun hagree => ?_
            have hcompatible : Compatible children t.children := by
              intro key way
              have hway := hagree (key :: way)
              rw [hthere] at hway
              exact hway
            cases hfailure.symm.trans (hmerges.ok.mpr hcompatible)
          · rw [h]
            have hunited := contentAt_united (c := .node label children) hlabel hjoin
              (hmerges.united hok)
            have hkey := congrArg Relation.key hlabel
            have hagree : ∀ way, Agree
                (contentBelow (before ++ .node label children :: behind) t.label.key way)
                (contentAt way t) := by
              intro way
              rw [hthere]
              cases way with
              | nil => exact hhere
              | cons key way => exact hmerges.ok.mp hok key way
            refine .of_taken (taken_replace hsame hkey hfirst hunited) hagree hnew
              (mergeTrees_merges ts _ _ _ (siblings_replace hown hkey ?_) hts)
            exact .of_siblings (hmerges.siblings hok)
        · cases hjoin

end

end Merge

section Self

mutual

/-- A tree merged with itself stays as it is. -/
theorem mergeTree_self : ∀ (t : RelationTree) (u : Supply), SiblingsApart t → ShadowedAll [t] →
    mergeTree t t u = ⟨t, u, none⟩
  | .node r kids, u, happart, hshadowed => by
    obtain ⟨hr, hkids, _⟩ := shadowedAll_cons.mp hshadowed
    have hmerged := mergeTrees_self kids r.aliasName kids u (fun _ ht => ht) happart.siblings hkids
    rw [mergeTree]
    simp only [Tree.label, Tree.children, hr.uniteColumns_self, hmerged]

theorem mergeTrees_self : ∀ (ts : List RelationTree) (parentAlias : String) (own : List RelationTree)
    (u : Supply), (∀ t ∈ ts, t ∈ own) → Siblings own → ShadowedAll ts →
      mergeTrees parentAlias own ts u = ⟨own, u, none⟩
  | [], _, _, _, _, _, _ => by rw [mergeTrees]
  | t :: ts, parentAlias, own, u, hown, hsiblings, hshadowed => by
    rw [List.forall_mem_cons] at hown
    obtain ⟨r, kids⟩ := t
    obtain ⟨hr, hkids, hts⟩ := shadowedAll_cons.mp hshadowed
    rcases mergeTrees_cons parentAlias own (.node r kids) ts u with ⟨hnone, _⟩ |
      ⟨before, label, children, behind, rfl, hmatching, hplaced⟩
    · exact Bool.noConfusion ((hnone _ hown.1).symm.trans (matching_iff_key.mpr rfl))
    · have hmem : .node label children ∈ before ++ .node label children :: behind :=
        List.mem_append_right _ List.mem_cons_self
      have hsame : Tree.node label children = .node r kids :=
        List.inj_on_of_nodup_map hsiblings.keys hmem hown.1 (matching_iff_key.mp hmatching)
      cases hsame
      have hself := mergeTree_self (.node r kids) u (hsiblings.below _ hown.1)
        (shadowedAll_cons.mpr ⟨hr, hkids, shadowedAll_nil⟩)
      have hrest := mergeTrees_self ts parentAlias (before ++ .node r kids :: behind) u hown.2
        hsiblings hts
      have hcommon : commonJoin? r.join r.join = some r.join := by
        rw [commonJoin?_eq, if_pos (Or.inr (Or.inr rfl)), ite_self]
      rcases hplaced with ⟨hrefused, _⟩ | ⟨join, hjoin, hplaced⟩
      · cases hrefused.symm.trans hcommon
      · cases hjoin.symm.trans hcommon
        rcases hplaced with ⟨failure, hfailure, _⟩ | ⟨_, h⟩
        · rw [hself] at hfailure
          cases hfailure
        · rw [h, hself]
          exact hrest

end

end Self

section Same

/-- The same tree, whatever the order of siblings: places of one key, join and set of column names, with
the same trees below. Numbers, names of row sources and the case of names do not count. -/
inductive Same : RelationTree → RelationTree → Prop where
  | node {r q : Relation} {kids matched others : List RelationTree} : r.key = q.key →
    r.content = q.content → matched.Perm others → List.Forall₂ Same kids matched →
      Same (.node r kids) (.node q others)

mutual

theorem same_of_content : ∀ (t other : RelationTree), SiblingsApart t → SiblingsApart other →
    t.label.key = other.label.key → (∀ way, contentAt way t = contentAt way other) → Same t other
  | .node r kids, .node q others, ht, hother, hkey, hcontent => by
    obtain ⟨matched, hperm, hmatched⟩ := matched_of_content kids others ht.siblings hother.siblings
      fun key way => hcontent (key :: way)
    exact .node hkey (Option.some.inj (hcontent [])) hperm hmatched

/-- Siblings with the same ways are matched by their keys. -/
theorem matched_of_content : ∀ (ts others : List RelationTree), Siblings ts → Siblings others →
    (∀ key way, contentBelow ts key way = contentBelow others key way) →
      ∃ matched, matched.Perm others ∧ List.Forall₂ Same ts matched
  | [], others, _, _, hcontent => by
    cases others with
    | nil => exact ⟨[], .nil, .nil⟩
    | cons c others =>
      have hhere := hcontent c.label.key []
      rw [contentBelow_cons_self] at hhere
      cases hhere
  | t :: ts, others, hts, hothers, hcontent => by
    obtain ⟨hnew, ht, hrest⟩ := siblings_cons.mp hts
    have hhere := hcontent t.label.key
    simp only [contentBelow_cons_self] at hhere
    obtain ⟨c, hc, _⟩ := Option.bind_eq_some_iff.mp (hhere []).symm
    obtain ⟨hmem, hkey⟩ := childAt_some hc
    obtain ⟨before, behind, rfl⟩ := List.append_of_mem hmem
    obtain ⟨hbefore, hlater, hapart⟩ := siblings_append.mp hothers
    obtain ⟨hlast, hcApart, hbehind⟩ := siblings_cons.mp hlater
    have hfirst : c.label.key ∉ keys before := fun hmem => hapart _ hmem List.mem_cons_self
    have hwithout : Siblings (before ++ behind) := siblings_append.mpr ⟨hbefore, hbehind,
      fun key hkey hlater => hapart key hkey (List.mem_cons_of_mem _ hlater)⟩
    have hbelow : ∀ key way, contentBelow ts key way = contentBelow (before ++ behind) key way := by
      intro key way
      by_cases hsame : key = t.label.key
      · have hgone : key ∉ keys (before ++ behind) := by
          rw [keys, List.map_append, List.mem_append, hsame, ← hkey]
          exact not_or.mpr ⟨hfirst, hlast⟩
        rw [contentBelow_eq_none (hsame ▸ hnew), contentBelow_eq_none hgone]
      · have hother : c.label.key ≠ key := fun h => hsame (h.symm.trans hkey)
        rw [← contentBelow_cons_of_ne hsame ts way, hcontent, contentBelow, contentBelow,
          childAt_append, childAt_append, childAt_cons, if_neg hother]
    obtain ⟨matched, hperm, hmatched⟩ := matched_of_content ts (before ++ behind) hrest hwithout hbelow
    refine ⟨c :: matched, (hperm.cons c).trans List.perm_middle.symm, .cons ?_ hmatched⟩
    refine same_of_content t c ht hcApart hkey.symm fun way => ?_
    rw [hhere, contentBelow, hc, Option.bind_some]

end

end Same

/-- Nowhere do two relations hold different joins. -/
def Agrees (a b : Relations) : Prop := ∀ way, Agree (contentAt way a.tree) (contentAt way b.tree)

/-- Relations that can be merged: formed ones over a table, in which siblings differ. -/
structure Mergeable (table : TableId) (a : Relations) : Prop where
  table : a.root.table = table
  formed : a.Formed
  apart : SiblingsApart a.tree

/-- An attempt succeeds under a condition, and then with this at the end of every way. -/
def Gives (table : TableId) (attempt : Except Error Relations) (condition : Prop)
    (content : List PlaceKey → Option Content) : Prop :=
  (condition ∧ ∃ r, attempt = .ok r ∧ r.Mergeable table ∧ ∀ way, contentAt way r.tree = content way) ∨
    (¬condition ∧ ∃ e, attempt = .error e)

/-- Both fail, or both give the same tree. -/
def Alike : Except Error Relations → Except Error Relations → Prop
  | .ok a, .ok b => Same a.tree b.tree
  | .error _, .error _ => True
  | _, _ => False

section Laws

variable {table : TableId} {a b c : Relations}

theorem Mergeable.key (h : a.Mergeable table) : a.root.key = (table, .root, lowerAscii "") := by
  rw [Relation.key, h.table, h.formed.kind, h.formed.name]

theorem Gives.alike {x y : Except Error Relations} {p q : Prop}
    {content content' : List PlaceKey → Option Content} (hx : Gives table x p content)
    (hy : Gives table y q content') (hiff : p ↔ q) (hsame : p → ∀ way, content way = content' way) :
    Alike x y := by
  rcases hx with ⟨hp, r, rfl, hr, hcontent⟩ | ⟨hp, e, rfl⟩
  · rcases hy with ⟨_, s, rfl, hs, hcontent'⟩ | ⟨hq, _⟩
    · refine same_of_content r.tree s.tree hr.apart hs.apart (hr.key.trans hs.key.symm) fun way => ?_
      rw [hcontent, hcontent', hsame hp]
    · exact absurd (hiff.mp hp) hq
  · rcases hy with ⟨hq, _⟩ | ⟨_, e', rfl⟩
    · exact absurd (hiff.mpr hq) hp
    · trivial

theorem Gives.congr {attempt : Except Error Relations} {p q : Prop}
    {content content' : List PlaceKey → Option Content} (h : Gives table attempt p content)
    (hiff : p ↔ q) (hsame : ∀ way, content way = content' way) : Gives table attempt q content' := by
  obtain rfl : content = content' := funext hsame
  rwa [propext hiff] at h

/-- What is attempted next gives what it gives on what came before. -/
theorem Gives.bind {attempt : Except Error Relations} {next : Relations → Except Error Relations}
    {p q : Prop} {content content' : List PlaceKey → Option Content} (h : Gives table attempt p content)
    (hneeds : q → p) (hnext : p → ∀ r : Relations, r.Mergeable table →
      (∀ way, contentAt way r.tree = content way) → Gives table (next r) q content') :
    Gives table (attempt >>= next) q content' := by
  rcases h with ⟨hp, r, rfl, hr, hcontent⟩ | ⟨hp, e, rfl⟩
  · exact hnext hp r hr hcontent
  · exact Or.inr ⟨fun hq => hp (hneeds hq), e, rfl⟩

/-- A merge succeeds where the relations agree, and unites them. -/
theorem merged_gives (ha : a.Mergeable table) (hb : b.Mergeable table) :
    Gives table (a.merged b) (Agrees a b)
      fun way => unite (contentAt way a.tree) (contentAt way b.tree) := by
  obtain ⟨hlabel, hmerges⟩ := mergeTree_merges b.tree a.tree a.supply ha.apart hb.apart
  have hroot : a.tree.label.join = [] := ha.formed.join
  have hagrees : Agrees a b ↔ Compatible a.tree.children b.tree.children := by
    refine ⟨fun h key way => h (key :: way), fun h way => ?_⟩
    cases way with
    | nil => exact Or.inl hroot
    | cons key way => exact h key way
  have hmerge : a.merge b = ⟨⟨(mergeTree a.tree b.tree a.supply).value,
      (mergeTree a.tree b.tree a.supply).supply⟩, (mergeTree a.tree b.tree a.supply).supply,
      (mergeTree a.tree b.tree a.supply).failure⟩ := if_pos (ha.table.trans hb.table.symm)
  have hformed := ha.formed.merge hb.formed
  unfold merged
  rw [hmerge] at hformed ⊢
  cases hfailure : (mergeTree a.tree b.tree a.supply).failure with
  | none =>
    refine Or.inl ⟨hagrees.mpr (hmerges.ok.mp hfailure), _, rfl, ⟨?_, hformed, ?_⟩, ?_⟩
    · rw [root, hlabel]
      exact ha.table
    · exact .of_siblings (hmerges.siblings hfailure)
    · have hjoin : a.tree.label.join =
          if a.tree.label.join = [] then b.tree.label.join else a.tree.label.join := by
        rw [if_pos hroot]
        exact hroot.trans hb.formed.join.symm
      exact contentAt_united (c := a.tree) hlabel hjoin (hmerges.united hfailure)
  | some failure =>
    refine Or.inr ⟨fun h => ?_, failure, rfl⟩
    cases hfailure.symm.trans (hmerges.ok.mpr (hagrees.mp h))

theorem merged_comm (ha : a.Mergeable table) (hb : b.Mergeable table) :
    Alike (a.merged b) (b.merged a) :=
  (merged_gives ha hb).alike (merged_gives hb ha)
    (forall_congr' fun _ => ⟨agree_comm, agree_comm⟩) fun hagrees way => unite_comm (hagrees way)

/-- What merging on top of a merge comes to: all three agree with each other, or it fails. -/
theorem merged_left (ha : a.Mergeable table) (hb : b.Mergeable table) (hc : c.Mergeable table) :
    Gives table (a.merged b >>= fun ab => ab.merged c) (Agrees a b ∧ Agrees a c ∧ Agrees b c)
      fun way => unite (unite (contentAt way a.tree) (contentAt way b.tree)) (contentAt way c.tree) := by
  refine (merged_gives ha hb).bind And.left ?_
  intro hab r hmergeable hcontent
  have hall : Agrees r c ↔ Agrees a c ∧ Agrees b c := by
    unfold Agrees
    rw [← forall_and]
    exact forall_congr' fun way => by rw [hcontent, agree_unite (hab way)]
  refine (merged_gives hmergeable hc).congr ?_ ?_
  · rw [hall, and_iff_right hab]
  · intro way
    rw [hcontent]

/-- What merging a merge into relations comes to. -/
theorem merged_right (ha : a.Mergeable table) (hb : b.Mergeable table) (hc : c.Mergeable table) :
    Gives table (b.merged c >>= fun bc => a.merged bc) (Agrees a b ∧ Agrees a c ∧ Agrees b c)
      fun way => unite (contentAt way a.tree) (unite (contentAt way b.tree) (contentAt way c.tree)) := by
  refine (merged_gives hb hc).bind (fun h => h.2.2) ?_
  intro hbc r hmergeable hcontent
  have hall : Agrees a r ↔ Agrees a b ∧ Agrees a c := by
    unfold Agrees
    rw [← forall_and]
    refine forall_congr' fun way => ?_
    have hunion := agree_unite (hbc way) (contentAt way a.tree)
    rw [hcontent]
    exact ⟨fun h => (hunion.mp (agree_comm h)).imp agree_comm agree_comm,
      fun h => agree_comm (hunion.mpr (h.imp agree_comm agree_comm))⟩
  refine (merged_gives ha hmergeable).congr ?_ ?_
  · rw [hall, ← and_assoc, and_iff_left hbc]
  · intro way
    rw [hcontent]

theorem merged_assoc (ha : a.Mergeable table) (hb : b.Mergeable table) (hc : c.Mergeable table) :
    Alike (a.merged b >>= fun ab => ab.merged c) (b.merged c >>= fun bc => a.merged bc) :=
  (merged_left ha hb hc).alike (merged_right ha hb hc) Iff.rfl fun _ _ => unite_assoc _ _ _

theorem merge_self (hformed : a.Formed) (happart : SiblingsApart a.tree) :
    a.merge a = ⟨a, a.supply, none⟩ := by
  rw [merge, if_pos rfl, mergeTree_self a.tree a.supply happart hformed.columns]

/-- Merging relations over one table is a union, wherever siblings differ: the order of the sides and
of the merges does not matter, and relations merged with themselves stay as they are. -/
theorem merge_union (ha : a.Built) (hb : b.Built) (hc : c.Built)
    (hab : a.root.table = b.root.table) (hac : a.root.table = c.root.table)
    (haApart : SiblingsApart a.tree) (hbApart : SiblingsApart b.tree) (hcApart : SiblingsApart c.tree) :
    Alike (a.merged b) (b.merged a) ∧
      Alike (a.merged b >>= fun ab => ab.merged c) (b.merged c >>= fun bc => a.merged bc) ∧
      a.merge a = ⟨a, a.supply, none⟩ := by
  have ha' : a.Mergeable a.root.table := ⟨rfl, ha.formed, haApart⟩
  have hb' : b.Mergeable a.root.table := ⟨hab.symm, hb.formed, hbApart⟩
  have hc' : c.Mergeable a.root.table := ⟨hac.symm, hc.formed, hcApart⟩
  exact ⟨merged_comm ha' hb', merged_assoc ha' hb' hc', merge_self ha.formed haApart⟩

end Laws

/-- A department with its employees and its projects. -/
def officeDeclarations : List TableDeclaration := [
  ⟨"Department", .table, [⟨"Id", .integer 4, false, true, false⟩], []⟩,
  ⟨"Employee", .table, [⟨"Id", .integer 4, false, true, false⟩,
    ⟨"DepartmentId", .integer 4, false, false, false⟩], [⟨["DepartmentId"], "Department", ["Id"]⟩]⟩,
  ⟨"Project", .table, [⟨"Id", .integer 4, false, true, false⟩,
    ⟨"DepartmentId", .integer 4, false, false, false⟩], [⟨["DepartmentId"], "Department", ["Id"]⟩]⟩]

/-- The relations along a path from the department. -/
def officePath (step : String) : Option Relations :=
  (Schema.build officeDeclarations).toOption.bind fun schema =>
    (schema.findTable "Department").bind fun table =>
      (Resolver.resolvePath ⟨schema, .exact, .warn⟩ table ⟨[step]⟩).toOption

theorem built_officePath {step : String} {relations : Relations}
    (h : officePath step = some relations) : relations.Built := by
  obtain ⟨schema, _, h⟩ := Option.bind_eq_some_iff.mp h
  obtain ⟨table, _, h⟩ := Option.bind_eq_some_iff.mp h
  exact .resolvePath (ok_of_toOption h)

/-- The employees and the projects of a department are united, the employees named twice only once. -/
theorem merge_union_office : ∃ a b c, officePath "Employee" = some a ∧ officePath "Project" = some b ∧
    officePath "EMPLOYEE" = some c ∧ (a.merged b).toOption.any (fun r => r.all.length == 3) = true ∧
      (a.merged c).toOption.any (fun r => r.all.length == 2) = true ∧
      Alike (a.merged b) (b.merged a) ∧
      Alike (a.merged b >>= fun ab => ab.merged c) (b.merged c >>= fun bc => a.merged bc) ∧
      a.merge a = ⟨a, a.supply, none⟩ := by
  have htest : ((officePath "Employee").any fun a => (officePath "Project").any fun b =>
      (officePath "EMPLOYEE").any fun c =>
        (a.merged b).toOption.any (fun r => r.all.length == 3) &&
        (a.merged c).toOption.any (fun r => r.all.length == 2) &&
        decide (a.root.table = b.root.table ∧ a.root.table = c.root.table ∧ SiblingsApart a.tree ∧
          SiblingsApart b.tree ∧ SiblingsApart c.tree)) = true := by
    decide +kernel
  simp only [Option.any_eq_true, Bool.and_eq_true, decide_eq_true_eq] at htest
  obtain ⟨a, ha, b, hb, c, hc, ⟨htwo, hone⟩, hab, hac, haApart, hbApart, hcApart⟩ := htest
  refine ⟨a, b, c, ha, hb, hc, ?_, ?_, merge_union (built_officePath ha) (built_officePath hb)
    (built_officePath hc) hab hac haApart hbApart hcApart⟩
  · simpa only [Option.any_eq_true] using htwo
  · simpa only [Option.any_eq_true] using hone

end ShapeSql.Relations
