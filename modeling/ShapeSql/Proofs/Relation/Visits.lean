import Mathlib.Data.List.TakeWhile
import ShapeSql.Proofs.Relation.Wired

namespace ShapeSql

variable {s : Schema} {table : Table}

namespace Relations

/-- A visit of a place that hangs below the one of another visit. -/
def Below (s : Schema) (w v : Tree.Visit Relation) : Prop :=
  v.ancestors = w.lineage ∧ v.label.Under s w.label.aliasName w.label.table

/-- Each visit is of a place below one that was seen before it. -/
def Ordered (s : Schema) : List (Tree.Visit Relation) → List (Tree.Visit Relation) → Prop
  | _, [] => True
  | seen, v :: rest => (∃ w ∈ seen, Below s w v) ∧ Ordered s (seen ++ [v]) rest

theorem ordered_append {seen xs ys : List (Tree.Visit Relation)} (hxs : Ordered s seen xs)
    (hys : Ordered s (seen ++ xs) ys) : Ordered s seen (xs ++ ys) := by
  induction xs generalizing seen with
  | nil =>
    rw [List.append_nil] at hys
    exact hys
  | cons v xs ih =>
    refine ⟨hxs.1, ih hxs.2 ?_⟩
    rw [List.append_assoc]
    exact hys

theorem Ordered.below {seen vs : List (Tree.Visit Relation)} (h : Ordered s seen vs)
    {v : Tree.Visit Relation} (hv : v ∈ vs) : ∃ w ∈ seen ++ vs, Below s w v := by
  induction vs generalizing seen with
  | nil => cases hv
  | cons first rest ih =>
    rcases List.mem_cons.mp hv with rfl | hmem
    · obtain ⟨w, hw, hbelow⟩ := h.1
      exact ⟨w, List.mem_append_left _ hw, hbelow⟩
    · obtain ⟨w, hw, hbelow⟩ := ih h.2 hmem
      rw [List.append_assoc] at hw
      exact ⟨w, hw, hbelow⟩

mutual

theorem ordered_visitsBelow : ∀ (t : RelationTree) {seen : List (Tree.Visit Relation)}
    {w : Tree.Visit Relation}, w ∈ seen → Tied s w.label.aliasName w.label.table t →
      Ordered s seen (t.visitsBelow w.lineage)
  | .node r kids, seen, w, hw, ⟨hunder, hkids⟩ => by
    rw [Tree.visitsBelow]
    refine ⟨⟨w, hw, rfl, hunder⟩, ?_⟩
    exact ordered_visitsBelowAll kids (w := ⟨r, w.lineage, kids.map Tree.label⟩)
      (List.mem_append_right _ (List.mem_singleton.mpr rfl)) hkids

theorem ordered_visitsBelowAll : ∀ (ts : List RelationTree) {seen : List (Tree.Visit Relation)}
    {w : Tree.Visit Relation}, w ∈ seen → TiedAll s w.label.aliasName w.label.table ts →
      Ordered s seen (Tree.visitsBelowAll w.lineage ts)
  | [], _, _, _, _ => trivial
  | t :: ts, seen, w, hw, ⟨ht, hts⟩ => by
    rw [Tree.visitsBelowAll]
    exact ordered_append (ordered_visitsBelow t hw ht)
      (ordered_visitsBelowAll ts (List.mem_append_left _ hw) hts)

end

/-- The visit of the root. -/
def rootVisit (relations : Relations) : Tree.Visit Relation :=
  ⟨relations.root, [], relations.tree.children.map Tree.label⟩

/-- The visits after the root's. -/
def lowerVisits (relations : Relations) : List (Tree.Visit Relation) :=
  Tree.visitsBelowAll [relations.root] relations.tree.children

theorem visits_eq (relations : Relations) :
    relations.visits = relations.rootVisit :: relations.lowerVisits := by
  obtain ⟨⟨root, kids⟩, supply⟩ := relations
  rfl

theorem rootVisit_mem (relations : Relations) : relations.rootVisit ∈ relations.visits := by
  rw [visits_eq]
  exact List.mem_cons_self

theorem map_label_visits (relations : Relations) :
    relations.visits.map Tree.Visit.label = relations.all :=
  Tree.map_label_visitsBelow relations.tree []

theorem label_mem_all {relations : Relations} {v : Tree.Visit Relation} (hv : v ∈ relations.visits) :
    v.label ∈ relations.all := by
  rw [← map_label_visits]
  exact List.mem_map_of_mem hv

theorem exists_visit {relations : Relations} {r : Relation} (hr : r ∈ relations.all) :
    ∃ v ∈ relations.visits, v.label = r := by
  rw [← map_label_visits] at hr
  exact List.mem_map.mp hr

theorem root_mem_all (relations : Relations) : relations.root ∈ relations.all :=
  Tree.label_mem_preorder relations.tree

theorem Below.isJoined {w v : Tree.Visit Relation} (h : Below s w v) :
    v.label.isJoined = !v.label.isEmbedded :=
  Relation.isJoined_eq h.2.root

section Wired

variable {relations : Relations}

theorem Wired.root_not_joined (h : relations.Wired s table) :
    relations.rootVisit.label.isJoined = false := by
  simp [rootVisit, Relation.isJoined, h.rootKind]

theorem Wired.root_not_embedded (h : relations.Wired s table) :
    relations.rootVisit.label.isEmbedded = false := by
  simp [rootVisit, Relation.isEmbedded, h.rootKind]

theorem Wired.ordered (h : relations.Wired s table) :
    Ordered s [relations.rootVisit] relations.lowerVisits := by
  have htied := h.tied
  rw [← h.rootAlias, ← h.rootTable] at htied
  exact ordered_visitsBelowAll (w := relations.rootVisit) relations.tree.children
    (List.mem_singleton.mpr rfl) htied

/-- A visit is of the root, or of a place below another visited one. -/
theorem Wired.visit_cases (h : relations.Wired s table) {v : Tree.Visit Relation}
    (hv : v ∈ relations.visits) :
    v = relations.rootVisit ∨ ∃ w ∈ relations.visits, Below s w v := by
  rw [visits_eq] at hv ⊢
  rcases List.mem_cons.mp hv with rfl | hmem
  · exact Or.inl rfl
  · exact Or.inr (h.ordered.below hmem)

/-- What is joined has a row source of its own. -/
theorem Wired.not_embedded_of_joined (h : relations.Wired s table) {v : Tree.Visit Relation}
    (hv : v ∈ relations.visits) (hjoined : v.label.isJoined = true) :
    v.label.isEmbedded = false := by
  rcases h.visit_cases hv with rfl | ⟨w, _, hbelow⟩
  · exact h.root_not_embedded
  · rw [hbelow.isJoined, Bool.not_eq_true'] at hjoined
    exact hjoined

/-- Every relation is a table of the schema. -/
theorem Wired.placed (h : relations.Wired s table) (htable : table ∈ s.tables) {r : Relation}
    (hr : r ∈ relations.all) : r.Placed s := by
  obtain ⟨v, hv, rfl⟩ := exists_visit hr
  rcases h.visit_cases hv with rfl | ⟨w, _, _, hunder⟩
  · exact ⟨table, htable, h.rootTable.symm⟩
  · exact hunder.placed

theorem Wired.columns_owned (h : relations.Wired s table) (hs : s.Sound) (htable : table ∈ s.tables)
    {r : Relation} (hr : r ∈ relations.all) : ∀ c ∈ r.columns, (s.table r.table).Owns c.column := by
  obtain ⟨v, hv, rfl⟩ := exists_visit hr
  rcases h.visit_cases hv with rfl | ⟨w, _, _, hunder⟩
  · show ∀ c ∈ relations.root.columns, (s.table relations.root.table).Owns c.column
    rw [h.rootTable, hs.table_id htable]
    exact h.columns
  · exact hunder.columns

/-- What is reached to-one hangs below what is. -/
theorem reachedToOne_of_below {w v : Tree.Visit Relation} (hbelow : Below s w v)
    (h : reachedToOne v = true) : reachedToOne w = true := by
  unfold reachedToOne at h ⊢
  rw [Tree.Visit.lineage, List.all_cons, Bool.and_eq_true, hbelow.1] at h
  exact h.2

theorem Wired.root_reached (h : relations.Wired s table) :
    reachedToOne relations.rootVisit = true := by
  simp [reachedToOne, rootVisit, Tree.Visit.lineage, Relation.isToOne, h.rootKind]

/-- The place whose row source a place reads: itself, or for an embedded one the nearest place above
that is none. -/
theorem Wired.owner (h : relations.Wired s table) :
    ∀ {v : Tree.Visit Relation}, v ∈ relations.visits →
      ∃ w ∈ relations.visits, w.label.isEmbedded = false ∧ w.label.aliasName = v.label.aliasName ∧
        w.label.table = v.label.table ∧ (reachedToOne v = true → reachedToOne w = true) := by
  -- The way up is finite: the place above has one ancestor less.
  suffices hlength : ∀ (n : Nat) {v : Tree.Visit Relation}, v ∈ relations.visits →
      v.ancestors.length = n → ∃ w ∈ relations.visits, w.label.isEmbedded = false ∧
        w.label.aliasName = v.label.aliasName ∧ w.label.table = v.label.table ∧
        (reachedToOne v = true → reachedToOne w = true) from
    fun {_} hv => hlength _ hv rfl
  intro n
  induction n with
  | zero =>
    intro v hv hzero
    rcases h.visit_cases hv with rfl | ⟨w, _, hlineage, _⟩
    · exact ⟨_, hv, h.root_not_embedded, rfl, rfl, id⟩
    · rw [hlineage] at hzero
      cases hzero
  | succ n ih =>
    intro v hv hn
    cases hembedded : v.label.isEmbedded with
    | false => exact ⟨v, hv, hembedded, rfl, rfl, id⟩
    | true =>
      rcases h.visit_cases hv with rfl | ⟨w, hw, hlineage, hunder⟩
      · cases hn
      · obtain ⟨htable, halias, _⟩ := hunder.embedded (Relation.isEmbedded_iff.mp hembedded)
        rw [hlineage] at hn
        obtain ⟨o, ho, hown, hname, hsame, hreached⟩ := ih hw (Nat.succ.inj hn)
        exact ⟨o, ho, hown, hname.trans halias.symm, hsame.trans htable.symm,
          fun hv => hreached (reachedToOne_of_below ⟨hlineage, hunder⟩ hv)⟩

/-- Aliases that agree up to case stand for the same table. -/
theorem Wired.table_of_sameName (h : relations.Wired s table) {r q : Relation}
    (hr : r ∈ relations.all) (hq : q ∈ relations.all)
    (hname : sameName r.aliasName q.aliasName = true) : r.table = q.table := by
  obtain ⟨v, hv, rfl⟩ := exists_visit hr
  obtain ⟨w, hw, rfl⟩ := exists_visit hq
  obtain ⟨v', hv', hown, halias, htable, _⟩ := h.owner hv
  obtain ⟨w', hw', hown', halias', htable', _⟩ := h.owner hw
  rw [← halias, ← halias'] at hname
  rw [← htable, ← htable', h.given.numbered.eq_of_sameName (label_mem_all hv') (label_mem_all hw')
    hown hown' hname]

/-- A visit is found again by the number of its place. -/
theorem Given.visit?_id {relations : Relations} (h : relations.Given) {v : Tree.Visit Relation}
    (hv : v ∈ relations.visits) : relations.visit? v.label.id = some v := by
  have hnodup : (relations.visits.map fun v => v.label.id).Nodup := by
    have hids := h.numbered.ids
    rw [← map_label_visits, List.map_map] at hids
    exact hids
  cases hfound : relations.visit? v.label.id with
  | none =>
    have hnot := List.find?_eq_none.mp hfound v hv
    simp at hnot
  | some w =>
    have hid : w.label.id = v.label.id := by simpa using List.find?_some hfound
    have hw : w ∈ relations.visits := List.mem_of_find?_eq_some hfound
    rw [List.inj_on_of_nodup_map hnodup hw hv hid]

theorem Wired.visit?_id (h : relations.Wired s table) {v : Tree.Visit Relation}
    (hv : v ∈ relations.visits) : relations.visit? v.label.id = some v :=
  h.given.visit?_id hv

/-- Places with row sources of their own have different names. -/
theorem Wired.eq_of_sameName (h : relations.Wired s table) {v w : Tree.Visit Relation}
    (hv : v ∈ relations.visits) (hw : w ∈ relations.visits) (hown : v.label.isEmbedded = false)
    (hown' : w.label.isEmbedded = false)
    (hname : sameName v.label.aliasName w.label.aliasName = true) : v = w := by
  have hlabel : v.label = w.label := h.given.numbered.eq_of_sameName (label_mem_all hv)
    (label_mem_all hw) hown hown' hname
  have hfound : some v = some w := by
    rw [← h.visit?_id hv, ← h.visit?_id hw, hlabel]
  exact Option.some.inj hfound

/-- Each visit is of a place below the one before, the first below `w`. -/
def Chain (s : Schema) (relations : Relations) :
    Tree.Visit Relation → List (Tree.Visit Relation) → Prop
  | _, [] => True
  | w, v :: rest => v ∈ relations.visits ∧ Below s w v ∧ Chain s relations v rest

theorem Chain.snoc {w : Tree.Visit Relation} {vs : List (Tree.Visit Relation)}
    (h : Chain s relations w vs) {last v : Tree.Visit Relation} (hlast : vs.getLast?.getD w = last)
    (hv : v ∈ relations.visits) (hbelow : Below s last v) : Chain s relations w (vs ++ [v]) := by
  induction vs generalizing w with
  | nil =>
    have hw : w = last := hlast
    exact ⟨hv, hw ▸ hbelow, trivial⟩
  | cons first rest ih =>
    refine ⟨h.1, h.2.1, ih h.2.2 ?_⟩
    rw [List.getLast?_cons, Option.getD_some] at hlast
    exact hlast

/-- The steps that may lead to several rows on the way to a place, the one nearest to the root first:
the way that an `EXISTS` for a collection joins. -/
def manySteps (relations : Relations) (v : Tree.Visit Relation) : List (Tree.Visit Relation) :=
  ((v.lineage.filterMap fun r => relations.visit? r.id).takeWhile fun v => !reachedToOne v).reverse

/-- The steps set out from a place that is reached to-one, and end at the place itself. -/
theorem Wired.manySteps_chain (h : relations.Wired s table) :
    ∀ {v : Tree.Visit Relation}, v ∈ relations.visits →
      ∃ w ∈ relations.visits, reachedToOne w = true ∧ Chain s relations w (manySteps relations v) ∧
        (manySteps relations v).getLast?.getD w = v := by
  suffices hlength : ∀ (n : Nat) {v : Tree.Visit Relation}, v ∈ relations.visits →
      v.ancestors.length = n →
      ∃ w ∈ relations.visits, reachedToOne w = true ∧ Chain s relations w (manySteps relations v) ∧
        (manySteps relations v).getLast?.getD w = v from
    fun {_} hv => hlength _ hv rfl
  intro n
  induction n with
  | zero =>
    intro v hv hzero
    rcases h.visit_cases hv with rfl | ⟨w, _, hlineage, _⟩
    · have hnone : manySteps relations relations.rootVisit = [] := by
        have hfirst : relations.rootVisit.lineage.filterMap (fun r => relations.visit? r.id) =
            [relations.rootVisit] := by
          have hlineage : relations.rootVisit.lineage = [relations.root] := rfl
          have hfound : relations.visit? relations.root.id = some relations.rootVisit :=
            h.visit?_id hv
          simp only [hlineage, List.filterMap_cons, hfound, List.filterMap_nil]
        rw [manySteps, hfirst, List.takeWhile_cons_of_neg, List.reverse_nil]
        rw [h.root_reached]
        decide
      rw [hnone]
      exact ⟨_, hv, h.root_reached, trivial, rfl⟩
    · rw [hlineage] at hzero
      cases hzero
  | succ n ih =>
    intro v hv hn
    rcases h.visit_cases hv with rfl | ⟨w, hw, hlineage, hunder⟩
    · cases hn
    · have hfound := h.visit?_id hv
      cases hreached : reachedToOne v with
      | true =>
        have hnone : manySteps relations v = [] := by
          simp [manySteps, Tree.Visit.lineage, hfound, hreached]
        rw [hnone]
        exact ⟨v, hv, hreached, trivial, rfl⟩
      | false =>
        have hsteps : manySteps relations v = manySteps relations w ++ [v] := by
          have hcons : v.lineage = v.label :: w.lineage := by rw [Tree.Visit.lineage, hlineage]
          have hfirst : (v.label :: w.lineage).filterMap (fun r => relations.visit? r.id) =
              v :: w.lineage.filterMap fun r => relations.visit? r.id := by
            simp [hfound]
          rw [manySteps, hcons, hfirst, List.takeWhile_cons_of_pos, List.reverse_cons, manySteps]
          rw [hreached]
          rfl
        rw [hlineage] at hn
        obtain ⟨start, hstart, htoOne, hchain, hlast⟩ := ih hw (Nat.succ.inj hn)
        rw [hsteps]
        refine ⟨start, hstart, htoOne, hchain.snoc hlast hv ⟨hlineage, hunder⟩, ?_⟩
        rw [List.getLast?_append, List.getLast?_singleton, Option.some_or, Option.getD_some]

theorem Chain.ordered {w : Tree.Visit Relation} {vs : List (Tree.Visit Relation)}
    (h : Chain s relations w vs) {seen : List (Tree.Visit Relation)} (hw : w ∈ seen) :
    Ordered s seen vs := by
  induction vs generalizing w seen with
  | nil => trivial
  | cons v rest ih =>
    exact ⟨⟨w, hw, h.2.1⟩, ih h.2.2 (List.mem_append_right _ (List.mem_singleton.mpr rfl))⟩

theorem Chain.mem_visits {w : Tree.Visit Relation} {vs : List (Tree.Visit Relation)}
    (h : Chain s relations w vs) : ∀ v ∈ vs, v ∈ relations.visits := by
  induction vs generalizing w with
  | nil => exact nofun
  | cons v rest ih => exact List.forall_mem_cons.mpr ⟨h.1, ih h.2.2⟩

theorem Chain.deeper {w : Tree.Visit Relation} {vs : List (Tree.Visit Relation)}
    (h : Chain s relations w vs) : ∀ v ∈ vs, w.ancestors.length < v.ancestors.length := by
  induction vs generalizing w with
  | nil => exact nofun
  | cons first rest ih =>
    have hfirst : w.ancestors.length < first.ancestors.length := by
      rw [h.2.1.1, Tree.Visit.lineage, List.length_cons]
      exact Nat.lt_succ_self _
    refine List.forall_mem_cons.mpr ⟨hfirst, ?_⟩
    intro v hv
    exact Nat.lt_trans hfirst (ih h.2.2 v hv)

/-- A chain that is not empty ends at one of its places. -/
theorem Chain.last_mem {w v first : Tree.Visit Relation} {rest : List (Tree.Visit Relation)}
    (hlast : (first :: rest).getLast?.getD w = v) : v ∈ first :: rest := by
  apply List.mem_of_getLast?
  rw [List.getLast?_cons, Option.getD_some] at hlast
  rw [List.getLast?_cons, hlast]

/-- The places of a chain that have row sources of their own have different names: each is deeper than
the one before. -/
theorem Chain.nodup_names (hwired : relations.Wired s table) {w : Tree.Visit Relation}
    {vs : List (Tree.Visit Relation)} (h : Chain s relations w vs)
    (hown : ∀ v ∈ vs, v.label.isEmbedded = false) :
    (vs.map fun v => lowerAscii v.label.aliasName).Nodup := by
  induction vs generalizing w with
  | nil => exact List.nodup_nil
  | cons first rest ih =>
    rw [List.forall_mem_cons] at hown
    rw [List.map_cons, List.nodup_cons]
    refine ⟨?_, ih h.2.2 hown.2⟩
    intro hmem
    obtain ⟨v, hv, hname⟩ := List.mem_map.mp hmem
    have hsame : v = first := hwired.eq_of_sameName (h.2.2.mem_visits v hv) h.1 (hown.2 v hv)
      hown.1 (by simpa [sameName] using hname)
    have hdeep := h.2.2.deeper v hv
    rw [hsame] at hdeep
    exact absurd hdeep (Nat.lt_irrefl _)

theorem not_reached_of_mem_manySteps {v w : Tree.Visit Relation}
    (hw : w ∈ manySteps relations v) : reachedToOne w = false := by
  have hkept := List.mem_takeWhile_imp (List.mem_reverse.mp hw)
  simpa using hkept

end Wired

section Find

mutual

theorem findShown_subset {name : String} : ∀ (t : RelationTree) {found : RelationTree},
    findShown name t = some found → found.preorder ⊆ t.preorder
  | .node r kids, found, h => by
    unfold findShown at h
    split at h
    · rw [Tree.preorder]
      exact List.Subset.trans (findChild_subset kids h) (List.subset_cons_self _ _)
    · split at h
      · cases h
        exact List.Subset.refl _
      · cases h

theorem findChild_subset {name : String} : ∀ (ts : List RelationTree) {found : RelationTree},
    findChild name ts = some found → found.preorder ⊆ Tree.preorderAll ts
  | [], _, h => by cases h
  | t :: ts, found, h => by
    unfold findChild at h
    rw [Tree.preorderAll]
    split at h
    · rename_i hfirst
      cases h
      exact List.Subset.trans (findShown_subset t hfirst) (List.subset_append_left _ _)
    · exact List.Subset.trans (findChild_subset ts h) (List.subset_append_right _ _)

end

theorem findSteps_subset {steps : List String} {t found : RelationTree}
    (h : findSteps t steps = some found) : found.preorder ⊆ t.preorder := by
  induction steps generalizing t with
  | nil =>
    cases h
    exact List.Subset.refl _
  | cons step steps ih =>
    unfold findSteps at h
    split at h
    · cases h
    · rename_i child hchild
      obtain ⟨r, kids⟩ := t
      rw [Tree.preorder]
      exact List.Subset.trans (ih h)
        (List.Subset.trans (findChild_subset kids hchild) (List.subset_cons_self _ _))

/-- What is found at a path is one of the relations. -/
theorem mem_of_find? {relations : Relations} {path : Path} {r : Relation}
    (h : relations.find? path = some r) : r ∈ relations.all := by
  obtain ⟨found, hfound, rfl⟩ := Option.map_eq_some_iff.mp h
  exact findSteps_subset hfound (Tree.label_mem_preorder found)

end Find

end Relations

end ShapeSql
