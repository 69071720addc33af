import ShapeSql.Tree

namespace ShapeSql

namespace Tree

variable {α : Type}

theorem preorderAll_eq_flatMap (ts : List (Tree α)) :
    preorderAll ts = ts.flatMap preorder := by
  induction ts with
  | nil => rfl
  | cons t ts ih => rw [preorderAll, ih, List.flatMap_cons]

theorem mem_visitsBelowAll {ts : List (Tree α)} {above : List α} {v : Visit α} :
    v ∈ visitsBelowAll above ts ↔ ∃ t ∈ ts, v ∈ t.visitsBelow above := by
  induction ts with
  | nil => simp [visitsBelowAll]
  | cons t ts ih => simp [visitsBelowAll, ih]

theorem label_mem_preorder (t : Tree α) : t.label ∈ t.preorder := by
  obtain ⟨a, kids⟩ := t
  exact List.mem_cons_self

theorem label_mem_preorderAll {kids : List (Tree α)} {a : α}
    (h : a ∈ kids.map label) : a ∈ preorderAll kids := by
  obtain ⟨t, ht, rfl⟩ := List.mem_map.mp h
  rw [preorderAll_eq_flatMap]
  exact List.mem_flatMap.mpr ⟨t, ht, label_mem_preorder t⟩

/-- A property of the label of a visit and of all the labels around it. -/
structure Visit.All (P : α → Prop) (v : Visit α) : Prop where
  label : P v.label
  ancestors : ∀ a ∈ v.ancestors, P a
  children : ∀ a ∈ v.children, P a

theorem preorderAll_append (xs ys : List (Tree α)) :
    preorderAll (xs ++ ys) = preorderAll xs ++ preorderAll ys := by
  rw [preorderAll_eq_flatMap, preorderAll_eq_flatMap, preorderAll_eq_flatMap, List.flatMap_append]

theorem mem_preorderAll_append {xs ys : List (Tree α)} {a : α} :
    a ∈ preorderAll (xs ++ ys) ↔ a ∈ preorderAll xs ∨ a ∈ preorderAll ys := by
  rw [preorderAll_eq_flatMap, preorderAll_eq_flatMap, preorderAll_eq_flatMap, List.flatMap_append,
    List.mem_append]

mutual

theorem preorder_map {β : Type} (f : α → β) : ∀ t : Tree α, (t.map f).preorder = t.preorder.map f
  | .node a kids => by rw [map, preorder, preorder, List.map_cons, preorderAll_mapAll f kids]

theorem preorderAll_mapAll {β : Type} (f : α → β) :
    ∀ ts : List (Tree α), preorderAll (mapAll f ts) = (preorderAll ts).map f
  | [] => rfl
  | t :: ts => by
    rw [mapAll, preorderAll, preorderAll, List.map_append, preorder_map f t, preorderAll_mapAll f ts]

end

mutual

theorem map_eq_self {f : α → α} : ∀ {t : Tree α}, (∀ a ∈ t.preorder, f a = a) → t.map f = t
  | .node a kids, h => by
    rw [preorder, List.forall_mem_cons] at h
    rw [map, h.1, mapAll_eq_self h.2]

theorem mapAll_eq_self {f : α → α} : ∀ {ts : List (Tree α)}, (∀ a ∈ preorderAll ts, f a = a) →
    mapAll f ts = ts
  | [], _ => rfl
  | t :: ts, h => by
    rw [preorderAll, List.forall_mem_append] at h
    rw [mapAll, map_eq_self h.1, mapAll_eq_self h.2]

end

/-- The same visit with its labels changed. -/
def Visit.map {β : Type} (f : α → β) (v : Visit α) : Visit β :=
  ⟨f v.label, v.ancestors.map f, v.children.map f⟩

theorem mapAll_eq_map {β : Type} (f : α → β) (ts : List (Tree α)) : mapAll f ts = ts.map (map f) := by
  induction ts with
  | nil => rfl
  | cons t ts ih => rw [mapAll, ih, List.map_cons]

theorem label_map {β : Type} (f : α → β) (t : Tree α) : (t.map f).label = f t.label := by
  obtain ⟨a, kids⟩ := t
  rfl

mutual

theorem visitsBelow_map {β : Type} (f : α → β) : ∀ (t : Tree α) (above : List α),
    (t.map f).visitsBelow (above.map f) = (t.visitsBelow above).map (Visit.map f)
  | .node a kids, above => by
    have hkids : (mapAll f kids).map label = (kids.map label).map f := by
      rw [mapAll_eq_map, List.map_map, List.map_map]
      exact List.map_congr_left fun t _ => label_map f t
    rw [map, visitsBelow, visitsBelow, List.map_cons, hkids, ← List.map_cons,
      visitsBelowAll_mapAll f kids (a :: above)]
    rfl

theorem visitsBelowAll_mapAll {β : Type} (f : α → β) : ∀ (ts : List (Tree α)) (above : List α),
    visitsBelowAll (above.map f) (mapAll f ts) = (visitsBelowAll above ts).map (Visit.map f)
  | [], _ => rfl
  | t :: ts, above => by
    rw [mapAll, visitsBelowAll, visitsBelowAll, List.map_append, visitsBelow_map f t above,
      visitsBelowAll_mapAll f ts above]

end

mutual

theorem label_mem_of_visitsBelow : ∀ (t : Tree α) {above : List α} {v : Visit α},
    v ∈ t.visitsBelow above → v.label ∈ t.preorder
  | .node a kids, above, v, h => by
    rw [visitsBelow] at h
    rw [preorder]
    rcases List.mem_cons.mp h with rfl | hmem
    · exact List.mem_cons_self
    · exact List.mem_cons_of_mem _ (label_mem_of_visitsBelowAll kids hmem)

theorem label_mem_of_visitsBelowAll : ∀ (ts : List (Tree α)) {above : List α} {v : Visit α},
    v ∈ visitsBelowAll above ts → v.label ∈ preorderAll ts
  | [], _, _, h => nomatch h
  | t :: ts, above, v, h => by
    rw [visitsBelowAll] at h
    rw [preorderAll]
    rcases List.mem_append.mp h with hleft | hright
    · exact List.mem_append_left _ (label_mem_of_visitsBelow t hleft)
    · exact List.mem_append_right _ (label_mem_of_visitsBelowAll ts hright)

end

mutual

/-- What the whole tree stands below is above every visit. -/
theorem mem_ancestors_of_visitsBelow : ∀ (t : Tree α) {above : List α}, ∀ v ∈ t.visitsBelow above,
    ∀ a ∈ above, a ∈ v.ancestors
  | .node a kids, above => by
    intro v hv b hb
    rw [visitsBelow] at hv
    rcases List.mem_cons.mp hv with rfl | hmem
    · exact hb
    · exact mem_ancestors_of_visitsBelowAll kids v hmem b (List.mem_cons_of_mem _ hb)

theorem mem_ancestors_of_visitsBelowAll : ∀ (ts : List (Tree α)) {above : List α},
    ∀ v ∈ visitsBelowAll above ts, ∀ a ∈ above, a ∈ v.ancestors
  | [], _ => nofun
  | t :: ts, above => by
    intro v hv
    rw [visitsBelowAll] at hv
    rcases List.mem_append.mp hv with hleft | hright
    · exact mem_ancestors_of_visitsBelow t v hleft
    · exact mem_ancestors_of_visitsBelowAll ts v hright

end

mutual

theorem map_label_visitsBelow : ∀ (t : Tree α) (above : List α),
    (t.visitsBelow above).map Visit.label = t.preorder
  | .node a kids, above => by
    rw [visitsBelow, List.map_cons, map_label_visitsBelowAll kids, preorder]

theorem map_label_visitsBelowAll : ∀ (ts : List (Tree α)) (above : List α),
    (visitsBelowAll above ts).map Visit.label = preorderAll ts
  | [], _ => rfl
  | t :: ts, above => by
    rw [visitsBelowAll, List.map_append, map_label_visitsBelow t, map_label_visitsBelowAll ts,
      preorderAll]

end

section Edges

variable {R R' : α → α → Prop}

mutual

/-- The labels of a node and of a child of it are related, at every node. -/
def Edges (R : α → α → Prop) : Tree α → Prop
  | .node a kids => EdgesBelow R a kids

/-- A label is related to those of the trees below it, and in these every edge is. -/
def EdgesBelow (R : α → α → Prop) (a : α) : List (Tree α) → Prop
  | [] => True
  | t :: ts => (R a t.label ∧ Edges R t) ∧ EdgesBelow R a ts

end

theorem edgesBelow_iff {a : α} {kids : List (Tree α)} :
    EdgesBelow R a kids ↔ ∀ kid ∈ kids, R a kid.label ∧ Edges R kid := by
  induction kids with
  | nil => exact ⟨fun _ => nofun, fun _ => trivial⟩
  | cons t ts ih => rw [EdgesBelow, ih, List.forall_mem_cons]

mutual

theorem Edges.mono : ∀ (t : Tree α),
    (∀ a b, a ∈ t.preorder → b ∈ t.preorder → R a b → R' a b) → Edges R t → Edges R' t
  | .node a kids, hsub, h => by
    rw [preorder] at hsub
    rw [Edges] at h ⊢
    exact EdgesBelow.mono kids (fun b hb => hsub a b List.mem_cons_self (List.mem_cons_of_mem _ hb))
      (fun b b' hb hb' => hsub b b' (List.mem_cons_of_mem _ hb) (List.mem_cons_of_mem _ hb')) h

theorem EdgesBelow.mono : ∀ (ts : List (Tree α)) {a : α}, (∀ b ∈ preorderAll ts, R a b → R' a b) →
    (∀ b b', b ∈ preorderAll ts → b' ∈ preorderAll ts → R b b' → R' b b') →
      EdgesBelow R a ts → EdgesBelow R' a ts
  | [], _, _, _, _ => trivial
  | t :: ts, a, hroot, hsub, h => by
    rw [preorderAll] at hroot hsub
    refine ⟨⟨hroot _ (List.mem_append_left _ (label_mem_preorder t)) h.1.1, ?_⟩, ?_⟩
    · exact Edges.mono t (fun b b' hb hb' =>
        hsub b b' (List.mem_append_left _ hb) (List.mem_append_left _ hb')) h.1.2
    · exact EdgesBelow.mono ts (fun b hb => hroot b (List.mem_append_right _ hb))
        (fun b b' hb hb' => hsub b b' (List.mem_append_right _ hb) (List.mem_append_right _ hb')) h.2

end

mutual

theorem Edges.and : ∀ {t : Tree α}, Edges R t → Edges R' t → Edges (fun a b => R a b ∧ R' a b) t
  | .node a kids, h, h' => by
    rw [Edges] at h h' ⊢
    exact EdgesBelow.and h h'

theorem EdgesBelow.and : ∀ {ts : List (Tree α)} {a : α}, EdgesBelow R a ts → EdgesBelow R' a ts →
    EdgesBelow (fun a b => R a b ∧ R' a b) a ts
  | [], _, _, _ => trivial
  | _ :: _, _, h, h' => ⟨⟨⟨h.1.1, h'.1.1⟩, h.1.2.and h'.1.2⟩, EdgesBelow.and h.2 h'.2⟩

end

mutual

theorem edges_map {β : Type} {S : β → β → Prop} {f : α → β} : ∀ {t : Tree α},
    Edges (fun a b => S (f a) (f b)) t → Edges S (t.map f)
  | .node a kids, h => by
    rw [Edges] at h
    rw [map, Edges]
    exact edgesBelow_mapAll h

theorem edgesBelow_mapAll {β : Type} {S : β → β → Prop} {f : α → β} : ∀ {ts : List (Tree α)} {a : α},
    EdgesBelow (fun a b => S (f a) (f b)) a ts → EdgesBelow S (f a) (mapAll f ts)
  | [], _, _ => trivial
  | t :: ts, a, h => by
    refine ⟨⟨?_, edges_map h.1.2⟩, edgesBelow_mapAll h.2⟩
    rw [label_map]
    exact h.1.1

end

mutual

def decidableEdges (R : α → α → Prop) [∀ a b, Decidable (R a b)] : ∀ t : Tree α, Decidable (t.Edges R)
  | .node a kids => decidableEdgesBelow R a kids

def decidableEdgesBelow (R : α → α → Prop) [∀ a b, Decidable (R a b)] (a : α) :
    ∀ ts : List (Tree α), Decidable (EdgesBelow R a ts)
  | [] => .isTrue trivial
  | t :: ts =>
    have := decidableEdges R t
    have := decidableEdgesBelow R a ts
    inferInstanceAs (Decidable ((R a t.label ∧ t.Edges R) ∧ EdgesBelow R a ts))

end

instance (R : α → α → Prop) [∀ a b, Decidable (R a b)] (t : Tree α) : Decidable (t.Edges R) :=
  decidableEdges R t

/-- The label of a visit is related to the one above it and to those below it. -/
structure Visit.Tied (R : α → α → Prop) (v : Visit α) : Prop where
  above : ∀ a, v.parent? = some a → R a v.label
  below : ∀ b ∈ v.children, R v.label b

mutual

theorem Edges.tied : ∀ (t : Tree α) {above : List α}, (∀ a, above.head? = some a → R a t.label) →
    Edges R t → ∀ v ∈ t.visitsBelow above, v.Tied R
  | .node a kids, above, habove, h => by
    rw [Edges] at h
    intro v hv
    rw [visitsBelow] at hv
    rcases List.mem_cons.mp hv with rfl | hmem
    · refine ⟨habove, fun b hb => ?_⟩
      obtain ⟨kid, hkid, rfl⟩ := List.mem_map.mp hb
      exact (edgesBelow_iff.mp h kid hkid).1
    · exact EdgesBelow.tied kids h v hmem

theorem EdgesBelow.tied : ∀ (ts : List (Tree α)) {a : α} {above : List α}, EdgesBelow R a ts →
    ∀ v ∈ visitsBelowAll (a :: above) ts, v.Tied R
  | [], _, _, _ => nofun
  | t :: ts, a, above, h => by
    intro v hv
    rw [visitsBelowAll] at hv
    rcases List.mem_append.mp hv with hleft | hright
    · refine Edges.tied t (fun b hb => ?_) h.1.2 v hleft
      rw [List.head?_cons, Option.some.injEq] at hb
      rw [← hb]
      exact h.1.1
    · exact EdgesBelow.tied ts h.2 v hright

end

end Edges

mutual

/-- A visit is of the root, or of a child of another visited node. -/
theorem parent_of_visitsBelow : ∀ (t : Tree α) {above : List α}, ∀ v ∈ t.visitsBelow above,
    (v.ancestors = above ∧ v.label = t.label) ∨
      ∃ w ∈ t.visitsBelow above, v.parent? = some w.label ∧ v.label ∈ w.children
  | .node a kids, above => by
    intro v hv
    rw [visitsBelow] at hv ⊢
    rcases List.mem_cons.mp hv with rfl | hmem
    · exact Or.inl ⟨rfl, rfl⟩
    · right
      rcases parent_of_visitsBelowAll kids v hmem with ⟨habove, hlabel⟩ | ⟨w, hw, hparent⟩
      · refine ⟨_, List.mem_cons_self, ?_, hlabel⟩
        rw [Visit.parent?, habove]
        rfl
      · exact ⟨w, List.mem_cons_of_mem _ hw, hparent⟩

theorem parent_of_visitsBelowAll : ∀ (ts : List (Tree α)) {above : List α},
    ∀ v ∈ visitsBelowAll above ts, (v.ancestors = above ∧ v.label ∈ ts.map label) ∨
      ∃ w ∈ visitsBelowAll above ts, v.parent? = some w.label ∧ v.label ∈ w.children
  | [], _ => nofun
  | t :: ts, above => by
    intro v hv
    rw [visitsBelowAll] at hv ⊢
    rw [List.map_cons]
    rcases List.mem_append.mp hv with hleft | hright
    · rcases parent_of_visitsBelow t v hleft with ⟨habove, hlabel⟩ | ⟨w, hw, hparent⟩
      · exact Or.inl ⟨habove, hlabel ▸ List.mem_cons_self⟩
      · exact Or.inr ⟨w, List.mem_append_left _ hw, hparent⟩
    · rcases parent_of_visitsBelowAll ts v hright with ⟨habove, hlabel⟩ | ⟨w, hw, hparent⟩
      · exact Or.inl ⟨habove, List.mem_cons_of_mem _ hlabel⟩
      · exact Or.inr ⟨w, List.mem_append_right _ hw, hparent⟩

end

mutual

/-- What is above a visited node and what is below it are nodes too. -/
theorem all_of_visitsBelow {P : α → Prop} : ∀ (t : Tree α) {above : List α}, (∀ a ∈ above, P a) →
    (∀ a ∈ t.preorder, P a) → ∀ v ∈ t.visitsBelow above, v.All P
  | .node a kids, above, habove, h => by
    rw [preorder, List.forall_mem_cons] at h
    intro v hv
    rw [visitsBelow] at hv
    rcases List.mem_cons.mp hv with rfl | hmem
    · exact ⟨h.1, habove, fun b hb => h.2 b (label_mem_preorderAll hb)⟩
    · exact all_of_visitsBelowAll kids (List.forall_mem_cons.mpr ⟨h.1, habove⟩) h.2 v hmem

theorem all_of_visitsBelowAll {P : α → Prop} : ∀ (ts : List (Tree α)) {above : List α},
    (∀ a ∈ above, P a) → (∀ a ∈ preorderAll ts, P a) → ∀ v ∈ visitsBelowAll above ts, v.All P
  | [], _, _, _ => nofun
  | t :: ts, above, habove, h => by
    rw [preorderAll, List.forall_mem_append] at h
    intro v hv
    rw [visitsBelowAll] at hv
    rcases List.mem_append.mp hv with hleft | hright
    · exact all_of_visitsBelow t habove h.1 v hleft
    · exact all_of_visitsBelowAll ts habove h.2 v hright

end

end Tree

end ShapeSql
