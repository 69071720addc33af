import ShapeSql.Proofs.Except
import ShapeSql.Relation.Merge

namespace ShapeSql

/-- The first item with a property, and those before and after it. -/
theorem exists_split_of_findIdx? {α : Type} {test : α → Bool} {items : List α} {index : Nat}
    (h : items.findIdx? test = some index) :
    ∃ before found after, items = before ++ found :: after ∧ before.length = index ∧
      test found = true := by
  obtain ⟨hlt, htest, _⟩ := List.findIdx?_eq_some_iff_getElem.mp h
  refine ⟨items.take index, items[index], items.drop (index + 1), ?_, ?_, htest⟩
  · rw [List.getElem_cons_drop, List.take_append_drop]
  · rw [List.length_take, Nat.min_eq_left (Nat.le_of_lt hlt)]

theorem getD_split {α : Type} (before after : List α) (found default : α) :
    (before ++ found :: after).getD before.length default = found := by
  rw [List.getD_eq_getElem?_getD, List.getElem?_append_right (Nat.le_refl _), Nat.sub_self,
    List.getElem?_cons_zero, Option.getD_some]

theorem set_split {α : Type} (before after : List α) (found other : α) :
    (before ++ found :: after).set before.length other = before ++ other :: after := by
  rw [List.set_append_right _ _ (Nat.le_refl _), Nat.sub_self, List.set_cons_zero]

namespace Relations

/-- A tree that no sibling matches is copied beside them. One that a sibling matches is merged with it
where their joins agree, and what follows is merged unless something stopped that. -/
theorem mergeTrees_cons (parentAlias : String) (own : List RelationTree) (t : RelationTree)
    (ts : List RelationTree) (u : Supply) :
    ((∀ c ∈ own, matching c.label t.label = false) ∧ mergeTrees parentAlias own (t :: ts) u =
      mergeTrees parentAlias (own ++ [(copyTree parentAlias t u).1]) ts
        (copyTree parentAlias t u).2) ∨
    ∃ before label children behind, own = before ++ .node label children :: behind ∧
      matching label t.label = true ∧
      ((commonJoin? label.join t.label.join = none ∧ mergeTrees parentAlias own (t :: ts) u =
          ⟨own, u, some (.incident (.conflictingJoins t.label.path))⟩) ∨
        ∃ join, commonJoin? label.join t.label.join = some join ∧
          let merged := mergeTree (.node { label with join } children) t u
          (∃ failure, merged.failure = some failure ∧ mergeTrees parentAlias own (t :: ts) u =
            ⟨before ++ merged.value :: behind, merged.supply, some failure⟩) ∨
          merged.failure = none ∧ mergeTrees parentAlias own (t :: ts) u =
            mergeTrees parentAlias (before ++ merged.value :: behind) ts merged.supply) := by
  obtain ⟨r, kids⟩ := t
  cases hindex : own.findIdx? fun c => matching c.label (Tree.node r kids).label with
  | none =>
    refine Or.inl ⟨List.findIdx?_eq_none_iff.mp hindex, ?_⟩
    rw [mergeTrees, hindex]
  | some index =>
    obtain ⟨before, ⟨label, children⟩, behind, rfl, rfl, hmatching⟩ :=
      exists_split_of_findIdx? hindex
    refine Or.inr ⟨before, label, children, behind, rfl, hmatching, ?_⟩
    rw [mergeTrees, hindex]
    simp only [getD_split, set_split, Tree.label, Tree.children]
    cases hjoin : commonJoin? label.join r.join with
    | none => exact Or.inl ⟨rfl, rfl⟩
    | some join =>
      refine Or.inr ⟨join, rfl, ?_⟩
      simp only
      cases hfailure : (mergeTree (.node { label with join } children) (.node r kids) u).failure with
      | some failure => exact Or.inl ⟨failure, rfl, rfl⟩
      | none => exact Or.inr ⟨rfl, rfl⟩

/-- Relations that are merged have the same root, and nothing below it stopped the merge. -/
theorem merged_inv {own other relations : Relations} (h : own.merged other = .ok relations) :
    own.root.table = other.root.table ∧
      (mergeTree own.tree other.tree own.supply).failure = none ∧
      relations = ⟨(mergeTree own.tree other.tree own.supply).value,
        (mergeTree own.tree other.tree own.supply).supply⟩ := by
  unfold merged at h
  split at h
  · rename_i hnone
    cases h
    unfold merge at hnone ⊢
    by_cases htable : own.root.table = other.root.table
    · rw [if_pos htable] at hnone ⊢
      exact ⟨htable, hnone, rfl⟩
    · rw [if_neg htable] at hnone
      cases hnone
  · cases h

end Relations

end ShapeSql
