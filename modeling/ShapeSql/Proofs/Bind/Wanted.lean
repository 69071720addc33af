import ShapeSql.Proofs.Bind.Filling

namespace ShapeSql

open Sql

/-- The rule brings a parameter of this name, or keeps the one it declares. -/
def Filling.Wants (f : Filling) (action : Action) (name : String) : Prop :=
  name ∈ f.added.map Prod.fst ∨ (action.param? = some name ∧ name ∉ f.removed)

/-- A rule that brings nothing and declares nothing wants nothing. -/
theorem Filling.not_wants {f : Filling} {action : Action} (hadded : f.added = [])
    (hparam : action.param? = none) (name : String) : ¬f.Wants action name := by
  rintro (hname | ⟨hname, _⟩)
  · rw [hadded] at hname
    cases hname
  · rw [hparam] at hname
    cases hname

/-- Whether a comparison of this kind reads a parameter for the value. -/
def PredicateKind.reads (kind : PredicateKind) (value : Value) : Bool :=
  match kind with
  | .inList => !value.presentItems.isEmpty
  | .eq | .like => !value.isNull
  | .compare _ => true

namespace Predicate

variable (p : Predicate)

/-- A list reads the parameter of each member that is not null. -/
theorem inList_wants {items : List Value} {m : String × Value} (h : m ∈ p.members items) :
    items.filter (!·.isNull) ≠ [] ∧ .param m.1 ∈ (p.inList items).fragment.leaves := by
  obtain ⟨⟨item, place⟩, hplace, rfl⟩ := List.mem_map.mp h
  have hitem : item ∈ items.filter (!·.isNull) := List.fst_mem_of_mem_zipIdx hplace
  obtain ⟨hmem, hthere⟩ := List.mem_filter.mp hitem
  have hsome : ∃ item ∈ items, item.isNull = false := ⟨item, hmem, by simpa using hthere⟩
  have hleaf : ∀ negate, Leaf.param (itemName p.param place) ∈
      (Expr.inList p.column ((p.members items).map fun m => .param m.1) negate).collect .leaves () := by
    intro negate
    rw [p.leaves_members hsome]
    exact List.mem_append_right _ (List.mem_map_of_mem h)
  refine ⟨List.ne_nil_of_mem hitem, ?_⟩
  rcases p.inList_cases items with ⟨rfl, _⟩ | ⟨_, hnulls, _⟩ | ⟨_, _, hfill⟩ | ⟨_, _, hfill⟩
  · cases hmem
  · rw [hnulls item hmem] at hthere
    cases hthere
  · rw [hfill]
    exact hleaf p.negate
  · rw [hfill, Fragment.leaves]
    split
    · rw [Expr.collect_and]
      exact List.mem_append_left _ (hleaf true)
    · rw [Expr.collect_or]
      exact List.mem_append_left _ (hleaf false)

variable {p} {value : Value} {name : String}

/-- A condition without the parameter takes it back. -/
theorem not_wants_without {e : Expr} :
    ¬(Filling.without p.param (.expr e)).Wants (.predicate p) name := by
  rintro (hadded | ⟨hparam, hkept⟩)
  · cases hadded
  · rw [Action.param?] at hparam
    split at hparam
    · cases hparam
    · cases hparam
      exact hkept (List.mem_singleton.mpr rfl)

/-- A condition with the parameter has it as its last leaf. -/
theorem leaf_of_expr_wants (hkind : p.kind ≠ .inList) {e : Expr}
    (he : e.collect .leaves () = p.column.collect .leaves () ++ [.param p.param])
    (h : (Filling.expr e).Wants (.predicate p) name) : .param name ∈ e.collect .leaves () := by
  rcases h with hadded | ⟨hparam, _⟩
  · cases hadded
  · rw [Action.param?, if_neg hkind] at hparam
    rw [he, ← Option.some.inj hparam]
    exact List.mem_append_right _ (List.mem_singleton.mpr rfl)

theorem Makes.wants {f : Filling} (h : p.Makes value f) (hwants : f.Wants (.predicate p) name) :
    isIgnored p.ignore value = false ∧ p.kind.reads value = true ∧ .param name ∈ f.fragment.leaves := by
  cases h with
  | nothing | null => exact (not_wants_without hwants).elim
  | list hkept hkind =>
    refine ⟨hkept, ?_⟩
    rcases hwants with hadded | ⟨hparam, _⟩
    · obtain ⟨m, hm, rfl⟩ := List.mem_map.mp hadded
      obtain ⟨hpresent, hleaf⟩ := p.inList_wants hm
      refine ⟨?_, hleaf⟩
      rw [hkind, PredicateKind.reads, Value.presentItems, Bool.not_eq_true', Bool.eq_false_iff, ne_eq,
        List.isEmpty_iff]
      exact hpresent
    · rw [Action.param?, if_pos hkind] at hparam
      cases hparam
  | compare op hkept hkind =>
    have hother : p.kind ≠ .inList ∧ p.kind.reads value = true := by
      rcases hkind with hkind | ⟨hkind, _, hthere⟩
      · simp [hkind, PredicateKind.reads]
      · simp [hkind, PredicateKind.reads, hthere]
    exact ⟨hkept, hother.2, leaf_of_expr_wants hother.1 rfl hwants⟩
  | like hkept hkind hthere =>
    have hother : p.kind ≠ .inList ∧ p.kind.reads value = true := by
      simp [hkind, PredicateKind.reads, hthere]
    exact ⟨hkept, hother.2, leaf_of_expr_wants hother.1 rfl hwants⟩

/-- A comparison that is not left out reads the parameters that it wants, in its condition. -/
theorem fill_wants (h : (p.fill value).Wants (.predicate p) name) :
    isIgnored p.ignore value = false ∧ p.kind.reads value = true ∧
      .param name ∈ (p.fill value).fragment.leaves :=
  (p.fill_makes value).wants h

end Predicate

namespace RowsSource

/-- What a cell brings, it reads. -/
theorem leaf_of_cell {names : RowNames} {position : Nat} {element : Element}
    {place : RowColumn × Nat} {name : String}
    (h : name ∈ (cell names position element place).2.map Prod.fst) :
    .param name ∈ (cell names position element place).1.collect .leaves () := by
  obtain ⟨column, i⟩ := place
  cases column with
  | index | parentIndex | null => cases h
  | field path =>
    rw [cell, List.map_singleton, List.mem_singleton] at h
    rw [cell, h, Expr.collect]
    exact List.mem_singleton.mpr rfl

theorem fill_wants {source : RowsSource} {path : Path} {value : Value} {f : Filling}
    (hfill : source.fill path value = .ok f) {name : String} (h : f.Wants (.rows source) name) :
    .param name ∈ f.fragment.leaves := by
  obtain ⟨_, _, rfl⟩ := fill_ok_iff.mp hfill
  rcases h with hadded | ⟨hparam, _⟩
  · obtain ⟨member, hmember, rfl⟩ := List.mem_map.mp hadded
    obtain ⟨row, hrow, hmember⟩ := List.mem_flatMap.mp hmember
    obtain ⟨cell, hcell, hmember⟩ := List.mem_flatMap.mp hmember
    apply List.mem_flatMap.mpr
    refine ⟨row.map Prod.fst, List.mem_map_of_mem hrow, ?_⟩
    rw [exprsCollect_eq, List.flatMap_map]
    apply List.mem_flatMap.mpr
    refine ⟨cell, hcell, ?_⟩
    obtain ⟨⟨element, position⟩, _, rfl⟩ := List.mem_map.mp hrow
    obtain ⟨place, _, rfl⟩ := List.mem_map.mp hcell
    exact leaf_of_cell (List.mem_map_of_mem hmember)
  · cases hparam

end RowsSource

/-- The branches of a key match read what their cells bring. -/
theorem keyBranches_wants {cells : List (List KeyCell)} {name : String}
    (h : name ∈ (keyBranches cells).added.map Prod.fst) :
    .param name ∈ (keyBranches cells).fragment.leaves := by
  obtain ⟨member, hmember, rfl⟩ := List.mem_map.mp h
  obtain ⟨entity, hentity, hmember⟩ := List.mem_flatMap.mp hmember
  obtain ⟨cell, hcell, rfl⟩ := List.mem_map.mp hmember
  have hleaf : Leaf.param cell.param ∈
      optionalCollect .leaves () (Expr.allOf? (entity.map KeyCell.equality)) := by
    rw [Expr.optionalCollect_allOf?]
    apply List.mem_flatMap.mpr
    refine ⟨cell.equality, List.mem_map_of_mem hcell, ?_⟩
    rw [cell.leaves_equality]
    exact List.mem_append_right _ (List.mem_singleton.mpr rfl)
  cases hall : Expr.allOf? (entity.map KeyCell.equality) with
  | none =>
    rw [hall] at hleaf
    cases hleaf
  | some all =>
    rw [hall, optionalCollect] at hleaf
    rw [keyBranches, Fragment.leaves, Expr.collect_anyOf]
    apply List.mem_flatMap.mpr
    refine ⟨.group all, List.mem_filterMap.mpr ⟨entity, hentity, ?_⟩, ?_⟩
    · rw [hall, Option.map_some]
    · rw [Expr.collect]
      exact hleaf

theorem keyMatch_wants {columns : List (Expr × Path)} {base : String} {value : Value} {name : String}
    (h : (keyMatch columns base value).Wants (.keyMatch columns base) name) :
    .param name ∈ (keyMatch columns base value).fragment.leaves := by
  rcases h with hadded | ⟨hparam, _⟩
  · rcases keyMatch_cases columns base value with ⟨_, hmatch⟩ | ⟨column, field, _, _, hmatch⟩ | hmatch
    · rw [hmatch] at hadded
      cases hadded
    · rw [hmatch] at hadded ⊢
      obtain ⟨a, ha, rfl⟩ := List.mem_map.mp hadded
      rw [Fragment.leaves, Expr.collect_inList (List.ne_nil_of_mem (List.mem_map_of_mem ha)),
        Expr.flatMap_leaves_param]
      exact List.mem_append_right _ (List.mem_map_of_mem ha)
    · rw [hmatch] at hadded ⊢
      exact keyBranches_wants hadded
  · cases hparam

/-- What a filled rule wants stands in its fragment. -/
theorem HoleRule.leaf_of_wants {s : Schema} {rule : HoleRule} {value : Value} {f : Filling}
    (hfill : rule.fill s value = .ok f) {name : String} (h : f.Wants rule.action name) :
    .param name ∈ f.fragment.leaves := by
  obtain ⟨hole, path, action⟩ := rule
  cases action with
  | predicate p =>
    cases hfill
    exact (p.fill_wants h).2.2
  | guard ignore expr =>
    cases hfill
    exact (Filling.not_wants rfl rfl name h).elim
  | order expr =>
    obtain ⟨direction, _, hfill⟩ := except_bind_ok.mp hfill
    cases hfill
    exact (Filling.not_wants rfl rfl name h).elim
  | dynamicOrder first others =>
    obtain ⟨terms, _, hfill⟩ := except_bind_ok.mp hfill
    cases hfill
    exact (Filling.not_wants rfl rfl name h).elim
  | assign column param ignore =>
    rcases HoleRule.fill_assign hfill with ⟨_, rfl⟩ | ⟨_, rfl⟩
    · rcases h with hadded | ⟨hparam, hkept⟩
      · cases hadded
      · cases hparam
        exact (hkept (List.mem_singleton.mpr rfl)).elim
    · rcases h with hadded | ⟨hparam, _⟩
      · cases hadded
      · cases hparam
        rw [Fragment.leaves, List.flatMap_singleton, Assignment.boundLeaves, Expr.collect]
        exact List.mem_singleton.mpr rfl
  | rows source => exact RowsSource.fill_wants hfill h
  | keyMatch columns base =>
    cases hfill
    exact keyMatch_wants h

end ShapeSql
