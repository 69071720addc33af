import Mathlib.Data.List.Induction
import ShapeSql.Proofs.Bind.Skeleton

namespace ShapeSql

/-- The number of the item that is taken, at every level from the top. -/
abbrev Address := List Nat

namespace Value

/-- An element down the levels from a list: it is not null, nor is any item on the way. -/
inductive Reaches : Value → List Path → Address → Value → Prop where
  | item {v item : Value} {i : Nat} : v.items[i]? = some item → item.isNull = false →
    Reaches v [] [i] item
  | nested {v item element : Value} {i : Nat} {step : Path} {levels : List Path} {address : Address} :
    v.items[i]? = some item → item.isNull = false →
      Reaches (item.entry step) levels address element →
        Reaches v (step :: levels) (i :: address) element

/-- All elements down the levels, in the order of the document. -/
structure Lists (v : Value) (levels : List Path) (elements : List (Address × Value)) : Prop where
  exact : ∀ address element, (address, element) ∈ elements ↔ v.Reaches levels address element
  inOrder : elements.Pairwise fun a b => a.1 < b.1

/-- The items that are not null, with their numbers. -/
def numbered (v : Value) : List (Value × Nat) := v.items.zipIdx.filter fun p => !p.1.isNull

/-- The elements down the levels, item after item. -/
def elementsAlong : List Path → Value → List (Address × Value)
  | [], v => v.numbered.map fun p => ([p.2], p.1)
  | step :: levels, v => v.numbered.flatMap fun p =>
    (elementsAlong levels (p.1.entry step)).map fun a => (p.2 :: a.1, a.2)

theorem mem_numbered {v item : Value} {i : Nat} :
    (item, i) ∈ v.numbered ↔ v.items[i]? = some item ∧ item.isNull = false := by
  rw [numbered, List.mem_filter, List.mem_zipIdx_iff_getElem?]
  simp

theorem map_fst_numbered (v : Value) : v.numbered.map Prod.fst = v.presentItems := by
  have hpresent := List.filter_map (l := v.items.zipIdx) (f := Prod.fst)
    (p := fun item : Value => !item.isNull)
  rw [List.zipIdx_map_fst] at hpresent
  exact hpresent.symm

theorem numbered_inOrder (v : Value) : v.numbered.Pairwise fun p q => p.2 < q.2 := by
  refine List.Pairwise.filter _ (List.pairwise_map.mp ?_)
  rw [List.zipIdx_map_snd]
  exact List.pairwise_lt_range'

theorem mem_elementsAlong {levels : List Path} {v element : Value} {address : Address} :
    (address, element) ∈ elementsAlong levels v ↔ v.Reaches levels address element := by
  induction levels generalizing v address with
  | nil =>
    rw [elementsAlong, List.mem_map]
    constructor
    · rintro ⟨⟨item, i⟩, hitem, heq⟩
      cases heq
      obtain ⟨hget, hpresent⟩ := mem_numbered.mp hitem
      exact .item hget hpresent
    · intro h
      cases h with
      | item hget hpresent => exact ⟨_, mem_numbered.mpr ⟨hget, hpresent⟩, rfl⟩
  | cons step levels ih =>
    rw [elementsAlong, List.mem_flatMap]
    constructor
    · rintro ⟨⟨item, i⟩, hitem, hmem⟩
      obtain ⟨hget, hpresent⟩ := mem_numbered.mp hitem
      obtain ⟨⟨inner, below⟩, hbelow, heq⟩ := List.mem_map.mp hmem
      cases heq
      exact .nested hget hpresent (ih.mp hbelow)
    · intro h
      cases h with
      | nested hget hpresent hbelow =>
        exact ⟨_, mem_numbered.mpr ⟨hget, hpresent⟩, List.mem_map_of_mem (ih.mpr hbelow)⟩

theorem elementsAlong_inOrder (levels : List Path) (v : Value) :
    (elementsAlong levels v).Pairwise fun a b => a.1 < b.1 := by
  induction levels generalizing v with
  | nil =>
    rw [elementsAlong, List.pairwise_map]
    exact v.numbered_inOrder.imp fun hlt => List.cons_lt_cons_iff.mpr (Or.inl hlt)
  | cons step levels ih =>
    rw [elementsAlong, List.pairwise_flatMap]
    constructor
    · intro p _
      rw [List.pairwise_map]
      exact (ih _).imp fun hlt => List.cons_lt_cons_iff.mpr (Or.inr ⟨rfl, hlt⟩)
    · refine v.numbered_inOrder.imp fun hlt a ha b hb => ?_
      obtain ⟨_, _, rfl⟩ := List.mem_map.mp ha
      obtain ⟨_, _, rfl⟩ := List.mem_map.mp hb
      exact List.cons_lt_cons_iff.mpr (Or.inl hlt)

/-- Walking down item after item lists all elements in the order of the document. -/
theorem lists_elementsAlong (v : Value) (levels : List Path) :
    v.Lists levels (elementsAlong levels v) where
  exact _ _ := mem_elementsAlong
  inOrder := elementsAlong_inOrder levels v

/-- The elements one level further down, in the order of those above them. -/
theorem elementsAlong_snoc (levels : List Path) (step : Path) (v : Value) :
    elementsAlong (levels ++ [step]) v = (elementsAlong levels v).flatMap fun a =>
      (a.2.entry step).numbered.map fun p => (a.1 ++ [p.2], p.1) := by
  induction levels generalizing v with
  | nil =>
    simp only [List.nil_append, elementsAlong, List.map_map, List.flatMap_map]
    rfl
  | cons first levels ih =>
    rw [List.cons_append, elementsAlong, elementsAlong, List.flatMap_assoc]
    refine List.flatMap_congr fun p _ => ?_
    rw [ih, List.map_flatMap, List.flatMap_map]
    refine List.flatMap_congr fun a _ => ?_
    rw [List.map_map]
    rfl

end Value

namespace RowsSource

open Value

/-- An element as it is met on the way down: the owner is noted by its place in the level above. -/
structure Owned (v : Value) (levels : List Path) (a : Address × Value) (e : Element) : Prop where
  value : e.value = a.2
  owner : ∀ above step, levels = above ++ [step] → ∃ j owner, e.owner = some j ∧
    (elementsAlong above v)[j]? = some (a.1.dropLast, owner)

/-- Descending level by level meets the elements in the order of the document. -/
theorem owned_elements (v : Value) (levels : List Path) :
    List.Forall₂ (Owned v levels) (elementsAlong levels v)
      (levels.foldl descend (v.presentItems.map fun item => ⟨none, item⟩)) := by
  induction levels using List.reverseRecOn with
  | nil =>
    rw [elementsAlong, List.foldl_nil, ← map_fst_numbered, List.map_map, List.forall₂_map_left_iff,
      List.forall₂_map_right_iff, List.forall₂_same]
    refine fun p _ => ⟨rfl, fun above step h => ?_⟩
    exact absurd h.symm (List.append_ne_nil_of_right_ne_nil _ (List.cons_ne_nil _ _))
  | append_singleton levels step ih =>
    have hunnumbered : elementsAlong levels v = (elementsAlong levels v).zipIdx.map Prod.fst :=
      (List.zipIdx_map_fst 0 _).symm
    have hnumbered := (List.forall₂_and_left (p := fun p => (elementsAlong levels v)[p.2]? = some p.1)
      _ _).mpr ⟨fun p hp => List.mem_zipIdx_iff_getElem?.mp hp, forall₂_zipIdx ih 0⟩
    rw [elementsAlong_snoc, List.foldl_concat, descend, hunnumbered, List.flatMap_map]
    apply List.rel_flatMap hnumbered
    rintro ⟨a, j⟩ ⟨e, k⟩ ⟨hget, howned, hsame⟩
    obtain rfl : j = k := hsame
    have hvalue : e.value = a.2 := howned.value
    show List.Forall₂ (Owned v (levels ++ [step]))
      ((a.2.entry step).numbered.map fun p => (a.1 ++ [p.2], p.1))
      ((e.value.entry step).presentItems.map fun item => Element.mk (some j) item)
    rw [hvalue, ← map_fst_numbered, List.map_map, List.forall₂_map_left_iff,
      List.forall₂_map_right_iff, List.forall₂_same]
    refine fun p _ => ⟨rfl, fun above last h => ?_⟩
    obtain ⟨rfl, _⟩ := List.append_inj' h rfl
    exact ⟨j, a.2, rfl, by rw [hget, List.dropLast_concat]⟩

end RowsSource

end ShapeSql
