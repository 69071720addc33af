import Mathlib.Data.List.MinMax
import ShapeSql.Proofs.Relation.Links

namespace ShapeSql

/-- Whether a table declares one key to each of two others, or two keys to a table that is on both sides. -/
def Table.Pairs (table parent child : Table) : Prop :=
  (table.id ≠ parent.id ∧ table.id ≠ child.id) ∧
    if parent.id = child.id then (table.keysTo parent.id).length = 2
    else (table.keysTo parent.id).length = 1 ∧ (table.keysTo child.id).length = 1

instance (table parent child : Table) : Decidable (table.Pairs parent child) :=
  inferInstanceAs (Decidable (_ ∧ ite _ _ _))

/-- The tables with the fewest columns among those that pair two others, as declared. -/
def Schema.junctions (s : Schema) (parent child : Table) : List Table :=
  (s.tables.filter fun table => table.Pairs parent child).filter fun table =>
    ∀ other ∈ s.tables, other.Pairs parent child → table.columns.length ≤ other.columns.length

namespace Link

/-- The link leads through a junction, by the keys that it declares to both sides. -/
def Through (link : Link) (junction parent child : Table) : Prop :=
  ∃ toParent toChild, link = .junction junction.id toParent.backward toChild.forward ∧
    if parent.id = child.id then junction.keysTo parent.id = [toParent, toChild]
    else junction.keysTo parent.id = [toParent] ∧ junction.keysTo child.id = [toChild]

section

variable {s : Schema} {parent child : Table}

theorem isSome_junctionKeys_iff (table parent child : Table) :
    (junctionKeys parent child table).isSome = true ↔ table.Pairs parent child := by
  unfold junctionKeys Table.Pairs
  by_cases hside : table.id = parent.id ∨ table.id = child.id
  · rw [if_pos hside]
    exact iff_of_false nofun fun h => hside.elim h.1.1 h.1.2
  · rw [if_neg hside]
    have hother := not_or.mp hside
    by_cases hself : parent.id = child.id
    · rw [if_pos hself, if_pos hself]
      rcases table.keysTo parent.id with _ | ⟨toParent, _ | ⟨toChild, _ | _⟩⟩ <;> simp [hother]
    · rw [if_neg hself, if_neg hself]
      rcases table.keysTo parent.id with _ | ⟨toParent, _ | _⟩ <;>
        rcases table.keysTo child.id with _ | ⟨toChild, _ | _⟩ <;> simp [hother]

theorem candidates_tables (s : Schema) (parent child : Table) :
    (candidates s parent child).map Candidate.table =
      s.tables.filter fun table => table.Pairs parent child := by
  rw [candidates]
  induction s.tables with
  | nil => rfl
  | cons table tables ih =>
    have hpairs : (junctionKeys parent child table).isSome = decide (table.Pairs parent child) := by
      rw [Bool.eq_iff_iff, isSome_junctionKeys_iff, decide_eq_true_eq]
    rw [List.filterMap_cons, List.filter_cons, ← hpairs]
    cases junctionKeys parent child table with
    | none => exact ih
    | some keys => exact congrArg (table :: ·) ih

theorem narrowest_tables (s : Schema) (parent child : Table) :
    (narrowest (candidates s parent child)).map Candidate.table = s.junctions parent child := by
  let fewest := fun table : Table => decide (∀ other ∈ s.tables, other.Pairs parent child →
    table.columns.length ≤ other.columns.length)
  have hfewest : narrowest (candidates s parent child) =
      (candidates s parent child).filter (fewest ∘ Candidate.table) := by
    apply List.filter_congr
    intro c _
    have hall : ((candidates s parent child).all fun other =>
        c.table.columns.length ≤ other.table.columns.length) =
          ((candidates s parent child).map Candidate.table).all fun other =>
            c.table.columns.length ≤ other.columns.length := by
      rw [List.all_map]
      rfl
    rw [hall, candidates_tables, Bool.eq_iff_iff]
    simp only [fewest, Function.comp_apply, List.all_eq_true, List.mem_filter, decide_eq_true_eq,
      and_imp]
  rw [hfewest, ← List.filter_map, candidates_tables]
  rfl

theorem candidate_through {c : Candidate} (hc : c ∈ candidates s parent child) :
    c.link.Through c.table parent child := by
  obtain ⟨table, _, hkeys⟩ := List.mem_filterMap.mp hc
  obtain ⟨⟨toParent, toChild⟩, hpair, rfl⟩ := Option.map_eq_some_iff.mp hkeys
  refine ⟨toParent, toChild, rfl, ?_⟩
  unfold junctionKeys at hpair
  split at hpair
  · cases hpair
  · split at hpair
    · rename_i hself
      rw [if_pos hself]
      split at hpair
      · rename_i hdeclared
        cases hpair
        exact hdeclared
      · cases hpair
    · rename_i hself
      rw [if_neg hself]
      split at hpair
      · rename_i hparent hchild
        cases hpair
        exact ⟨hparent, hchild⟩
      · cases hpair

/-- If any table pairs two others, one of them has the fewest columns. -/
theorem junctions_eq_nil_iff :
    s.junctions parent child = [] ↔ ∀ table ∈ s.tables, ¬table.Pairs parent child := by
  rw [Schema.junctions, List.filter_eq_nil_iff]
  refine ⟨fun hnone table htable hpairs => ?_, fun hnone table htable => ?_⟩
  · let pairing := s.tables.filter fun table => table.Pairs parent child
    have hmem : table ∈ pairing := List.mem_filter.mpr ⟨htable, decide_eq_true hpairs⟩
    cases hleast : pairing.argmin fun table => table.columns.length with
    | none => exact List.ne_nil_of_mem hmem (List.argmin_eq_none.mp hleast)
    | some least =>
      refine hnone least (List.argmin_mem hleast) (decide_eq_true fun other hother hpairs => ?_)
      have hpairing : other ∈ pairing := List.mem_filter.mpr ⟨hother, decide_eq_true hpairs⟩
      exact List.le_of_mem_argmin (f := fun table => table.columns.length) hpairing hleast
  · obtain ⟨hmem, hpairs⟩ := List.mem_filter.mp htable
    exact absurd (of_decide_eq_true hpairs) (hnone table hmem)

theorem infer_of_unlinked (hparent : parent.keysTo child.id = []) (hchild : child.keysTo parent.id = [])
    (field : String) (many : Bool) (policy : JunctionPolicy) :
    infer s parent child field many policy = throughJunction s parent child policy := by
  unfold infer
  rw [hparent, hchild]
  cases many with
  | true | false => rfl

/-- Without a junction there is no link, whatever the policy. -/
theorem throughJunction_eq_none_iff {policy : JunctionPolicy} :
    throughJunction s parent child policy = .ok none ↔
      ∀ table ∈ s.tables, ¬table.Pairs parent child := by
  rw [← junctions_eq_nil_iff, ← narrowest_tables, List.map_eq_nil_iff]
  unfold throughJunction
  rcases narrowest (candidates s parent child) with _ | ⟨first, _ | ⟨second, rest⟩⟩
  · exact iff_of_true rfl rfl
  · cases policy with
    | warn | error => exact iff_of_false nofun nofun
  · cases policy with
    | warn | error => exact iff_of_false nofun nofun

/-- With junctions, the first one is linked through, unless there are several and the policy refuses to
choose. -/
theorem throughJunction_cases {junction : Table} {others : List Table}
    (hjunctions : s.junctions parent child = junction :: others) :
    ∃ link : Link, link.Through junction parent child ∧
      throughJunction s parent child .warn = .ok (some link) ∧
      throughJunction s parent child .error =
        if others = [] then .ok (some link)
        else .error (.of (.ambiguousRelation parent.name child.name
          ((junction :: others).map Table.name))) := by
  have htables := narrowest_tables s parent child
  rw [hjunctions] at htables
  obtain ⟨first, rest, hnarrowest, rfl, rfl⟩ := List.map_eq_cons_iff.mp htables
  have hfirst : first ∈ candidates s parent child := by
    have hmem : first ∈ narrowest (candidates s parent child) := by
      rw [hnarrowest]
      exact List.mem_cons_self
    exact List.mem_of_mem_filter hmem
  refine ⟨first.link, candidate_through hfirst, ?_⟩
  unfold throughJunction
  rw [hnarrowest]
  cases rest with
  | nil => exact ⟨rfl, rfl⟩
  | cons second rest =>
    refine ⟨rfl, ?_⟩
    rw [if_neg (List.map_eq_nil_iff.not.mpr (List.cons_ne_nil _ _)), ← List.map_cons, List.map_map]
    rfl

end

end Link
end ShapeSql
