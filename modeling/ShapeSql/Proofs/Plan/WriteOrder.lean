import ShapeSql.Proofs.Plan.WrittenTree

namespace ShapeSql

section Precedes

variable {α : Type} {xs ys : List α} {first second : α}

/-- Wherever the second one stands, the first one stands before it, and nowhere behind it. -/
def Precedes (xs : List α) (first second : α) : Prop :=
  ∀ before after, xs = before ++ second :: after → first ∈ before ∧ first ∉ after

/-- Where one is not among the first ones, it stands among the others. -/
theorem append_eq_cut {before after : List α} (h : xs ++ ys = before ++ second :: after)
    (hnot : second ∉ xs) : ∃ between, before = xs ++ between ∧ ys = between ++ second :: after := by
  rcases List.append_eq_append_iff.mp h with ⟨between, rfl, hrest⟩ | ⟨between, rfl, hrest⟩
  · exact ⟨between, rfl, hrest⟩
  · cases between with
    | nil => exact ⟨[], by rw [List.append_nil, List.append_nil], hrest.symm⟩
    | cons first between =>
      rw [List.cons_append, List.cons.injEq] at hrest
      exact (hnot (List.mem_append_right _ (hrest.1 ▸ List.mem_cons_self))).elim

/-- One on the left of a cut only precedes one on the right of it only. -/
theorem precedes_append (hfirst : first ∈ xs) (hnot : first ∉ ys) (hsecond : second ∉ xs) :
    Precedes (xs ++ ys) first second := by
  intro before after h
  obtain ⟨between, rfl, rfl⟩ := append_eq_cut h hsecond
  exact ⟨List.mem_append_left _ hfirst, fun hafter =>
    hnot (List.mem_append_right _ (List.mem_cons_of_mem _ hafter))⟩

/-- Without repetitions, one that is listed before another one precedes it. -/
theorem precedes_of_sublist (hnodup : xs.Nodup) (h : [first, second].Sublist xs) :
    Precedes xs first second := by
  rintro before after rfl
  have hapart := List.nodup_append.mp hnodup
  have hbefore : second ∉ before := fun hmem =>
    hapart.2.2 second hmem second List.mem_cons_self rfl
  have hafter : second ∉ after := (List.nodup_cons.mp hapart.2.1).1
  obtain ⟨left, right, hsplit, hleft, hright⟩ := List.sublist_append_iff.mp h
  match left, hsplit with
  | [], hsplit =>
    rw [List.nil_append] at hsplit
    rw [← hsplit] at hright
    rcases List.sublist_cons_iff.mp hright with hlater | ⟨rest, heq, hlater⟩
    · exact (hafter (hlater.subset (by simp))).elim
    · rw [List.cons.injEq] at heq
      exact (hafter (hlater.subset (by rw [← heq.2]; exact List.mem_cons_self))).elim
  | [x], hsplit =>
    rw [List.singleton_append, List.cons.injEq] at hsplit
    have hmem : first ∈ before := hleft.subset (by rw [hsplit.1]; exact List.mem_cons_self)
    exact ⟨hmem, fun hlater => hapart.2.2 first hmem first (List.mem_cons_of_mem _ hlater) rfl⟩
  | x :: y :: rest, hsplit =>
    rw [List.cons_append, List.cons_append, List.cons.injEq, List.cons.injEq] at hsplit
    refine (hbefore (hleft.subset ?_)).elim
    rw [hsplit.2.1]
    exact List.mem_cons_of_mem _ List.mem_cons_self

end Precedes

namespace Planner

mutual

/-- Every table is visited once in the order of writing. -/
theorem writeOrder_perm : ∀ (t : WrittenTree) (above : List WrittenTable),
    (writeOrder above t).Perm (t.visitsBelow above)
  | .node t kids, above => by
    rw [writeOrder, Tree.visitsBelow]
    exact List.perm_middle.trans ((writeOrderWhere_perm kids (t :: above)).cons _)

theorem writeOrderWhere_perm : ∀ (ts : List WrittenTree) (above : List WrittenTable),
    (writeOrderWhere true above ts ++ writeOrderWhere false above ts).Perm
      (Tree.visitsBelowAll above ts)
  | [], _ => .nil
  | t :: ts, above => by
    have hrest := writeOrderWhere_perm ts above
    rw [Tree.visitsBelowAll]
    refine List.Perm.trans ?_ ((writeOrder_perm t above).append hrest)
    rw [writeOrderWhere, writeOrderWhere]
    cases hfirst : writtenFirst t.label with
    | true =>
      simp only [BEq.rfl, if_true, Bool.true_eq_false, beq_iff_eq, if_false]
      rw [List.append_assoc]
    | false =>
      simp only [BEq.rfl, if_true, Bool.false_eq_true, beq_iff_eq, if_false]
      rw [← List.append_assoc, ← List.append_assoc]
      exact List.perm_append_comm.append_right _

end

/-- The two labels in the order of writing. -/
def writtenInOrder (parent child : WrittenTable) : List WrittenTable :=
  if writtenFirst child then [child, parent] else [parent, child]

/-- The tables in the order of writing. -/
def written (tree : WrittenTree) : List WrittenTable := (writeOrder [] tree).map Tree.Visit.label

theorem label_mem_writeOrder (t : WrittenTree) (above : List WrittenTable) :
    t.label ∈ (writeOrder above t).map Tree.Visit.label := by
  obtain ⟨t, kids⟩ := t
  rw [writeOrder, List.map_append, List.map_cons]
  exact List.mem_append_right _ List.mem_cons_self

/-- What is written for one of the trees is written among what is written for those of its kind. -/
theorem writeOrder_sublist {first : Bool} {above : List WrittenTable} {t : WrittenTree}
    {ts : List WrittenTree} (ht : t ∈ ts) (hfirst : writtenFirst t.label = first) :
    (writeOrder above t).Sublist (writeOrderWhere first above ts) := by
  induction ts with
  | nil => cases ht
  | cons t' ts ih =>
    rw [writeOrderWhere]
    rcases List.mem_cons.mp ht with rfl | hmem
    · rw [if_pos (by rw [hfirst, beq_self_eq_true])]
      exact List.sublist_append_left _ _
    · split
      · exact (ih hmem).trans (List.sublist_append_right _ _)
      · exact ih hmem

mutual

theorem writeOrder_edges : ∀ (t : WrittenTree) {above whole : List WrittenTable},
    ((writeOrder above t).map Tree.Visit.label).Sublist whole →
      t.Edges fun parent child => (writtenInOrder parent child).Sublist whole
  | .node t kids, above, whole, hwhole => by
    rw [writeOrder, List.map_append, List.map_cons] at hwhole
    rw [Tree.Edges]
    refine writeOrderWhere_edges kids (t :: above) (fun kid hkid => ?_)
    have hlabel := label_mem_writeOrder kid (t :: above)
    cases hfirst : writtenFirst kid.label with
    | true =>
      have hpart : ((writeOrder (t :: above) kid).map Tree.Visit.label).Sublist
          ((writeOrderWhere true (t :: above) kids).map Tree.Visit.label) :=
        (writeOrder_sublist hkid hfirst).map Tree.Visit.label
      refine ⟨(hpart.trans (List.sublist_append_left _ _)).trans hwhole, ?_⟩
      rw [writtenInOrder, if_pos hfirst]
      refine List.Sublist.trans ?_ hwhole
      exact (List.singleton_sublist.mpr (hpart.subset hlabel)).append
        (List.singleton_sublist.mpr List.mem_cons_self)
    | false =>
      have hpart : ((writeOrder (t :: above) kid).map Tree.Visit.label).Sublist
          ((writeOrderWhere false (t :: above) kids).map Tree.Visit.label) :=
        (writeOrder_sublist hkid hfirst).map Tree.Visit.label
      refine ⟨((hpart.trans (List.sublist_cons_self _ _)).trans
        (List.sublist_append_right _ _)).trans hwhole, ?_⟩
      rw [writtenInOrder, if_neg (by rw [hfirst]; exact Bool.false_ne_true)]
      refine List.Sublist.trans ?_ hwhole
      exact ((List.singleton_sublist.mpr (hpart.subset hlabel)).cons_cons t).trans
        (List.sublist_append_right _ _)

theorem writeOrderWhere_edges : ∀ (ts : List WrittenTree) (above : List WrittenTable)
    {t : WrittenTable} {whole : List WrittenTable},
    (∀ kid ∈ ts, ((writeOrder above kid).map Tree.Visit.label).Sublist whole ∧
      (writtenInOrder t kid.label).Sublist whole) →
      Tree.EdgesBelow (fun parent child => (writtenInOrder parent child).Sublist whole) t ts
  | [], _, _, _, _ => trivial
  | kid :: rest, above, t, whole, h => by
    rw [List.forall_mem_cons] at h
    exact ⟨⟨h.1.2, writeOrder_edges kid h.1.1⟩, writeOrderWhere_edges rest above h.2⟩

end

namespace Laid

variable {p : Planner} {tree : WrittenTree}

theorem nodup_indexes (h : p.Laid tree) : (tree.preorder.map WrittenTable.index).Nodup := by
  rw [h.numbered]
  exact List.nodup_range

theorem written_perm (tree : WrittenTree) : (written tree).Perm tree.preorder := by
  rw [← Tree.map_label_visitsBelow tree []]
  exact (writeOrder_perm tree []).map _

/-- Every table of the tree is written once. -/
theorem nodup_written (h : p.Laid tree) : ((written tree).map WrittenTable.index).Nodup :=
  ((written_perm tree).map _).nodup_iff.mpr h.nodup_indexes

/-- Of two linked tables, the one that is referred to is written first. -/
def InOrder (tree : WrittenTree) (parent child : WrittenTable) : Prop :=
  if writtenFirst child then Precedes (written tree) child parent
  else Precedes (written tree) parent child

theorem inOrder (h : p.Laid tree) : tree.Edges (InOrder tree) := by
  have hedges : tree.Edges fun parent child =>
      (writtenInOrder parent child).Sublist (written tree) :=
    writeOrder_edges tree (List.Sublist.refl _)
  refine Tree.Edges.mono tree (fun parent child _ _ hsublist => ?_) hedges
  have hnodup : (written tree).Nodup := h.nodup_written.of_map
  unfold InOrder
  unfold writtenInOrder at hsublist
  split
  · rw [if_pos ‹_›] at hsublist
    exact precedes_of_sublist hnodup hsublist
  · rw [if_neg ‹_›] at hsublist
    exact precedes_of_sublist hnodup hsublist

/-- A relation between linked tables, where they are written. -/
theorem tied_writeOrder {R : WrittenTable → WrittenTable → Prop} (hedges : tree.Edges R) :
    ∀ v ∈ writeOrder [] tree, v.Tied R := by
  intro v hv
  exact Tree.Edges.tied tree nofun hedges v ((writeOrder_perm tree []).subset hv)

theorem all_writeOrder : ∀ v ∈ writeOrder [] tree, v.All fun t => t ∈ tree.preorder :=
  fun v hv => Tree.all_of_visitsBelow tree nofun (fun _ h => h) v ((writeOrder_perm tree []).subset hv)

end Laid

end Planner

end ShapeSql
