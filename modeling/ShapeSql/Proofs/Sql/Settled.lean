import ShapeSql.Proofs.Sql.Substituted
import ShapeSql.Proofs.Sql.Write

namespace ShapeSql.Sql

/-- The leaf is written: its hole is bound to what the place needs, and so on down to the last hole. -/
inductive Leaf.Settled (subs : Substitution) : Leaf → Prop where
  | param (name : String) : Settled subs (.param name)
  | hole {place : Place} {id : HoleId} {fragment : Fragment} : subs.find? id = some fragment →
    fragment.place = place → (∀ l ∈ fragment.leaves, Settled subs l) → Settled subs (.hole place id)

/-- The first hole is a leaf of what the second one is bound to. -/
def Substitution.Holds (subs : Substitution) (inner outer : HoleId) : Prop :=
  ∃ fragment place, subs.find? outer = some fragment ∧ .hole place inner ∈ fragment.leaves

namespace Leaf.Settled

variable {subs : Substitution} {place : Place} {id : HoleId} {leaf : Leaf} {leaves : List Leaf}

theorem not_broken (h : ∀ l ∈ leaves, Settled subs l) (fault : Fault) : .broken fault ∉ leaves :=
  fun hmem => nomatch h _ hmem

theorem cases (h : Settled subs (.hole place id)) : ∃ fragment, subs.find? id = some fragment ∧
    fragment.place = place ∧ ∀ l ∈ fragment.leaves, Settled subs l := by
  cases h with
  | hole hfound hplace hleaves => exact ⟨_, hfound, hplace, hleaves⟩

/-- The leaves of what a settled hole is bound to are settled. -/
theorem bound {e : Expr} (h : Settled subs (.hole .expr id)) (hfound : subs.find? id = some (.expr e)) :
    ∀ l ∈ e.collect .leaves (), Settled subs l := by
  obtain ⟨_, hother, _, hleaves⟩ := h.cases
  cases hfound.symm.trans hother
  exact hleaves

/-- A settled hole is above finitely many holes only. -/
theorem acc (h : Settled subs leaf) : ∀ {place id}, leaf = .hole place id → Acc subs.Holds id := by
  induction h with
  | param name => exact nofun
  | hole hfound _ _ ih =>
    rintro _ _ ⟨⟩
    constructor
    rintro inner ⟨fragment, place, hother, hinner⟩
    cases hfound.symm.trans hother
    exact ih _ hinner rfl

theorem acyclic (h : Settled subs (.hole place id)) : ¬Relation.TransGen subs.Holds id id := by
  have hacc : Acc (Relation.TransGen subs.Holds) id := (h.acc rfl).transGen
  clear h
  -- A hole on a cycle would be below itself.
  induction hacc with
  | intro id _ ih => exact fun hcycle => ih id hcycle hcycle

/-- Induction along the chains of settled holes: each is shorter than the number of bindings and one. -/
theorem chain_induction {E : Nat → HoleId → Prop}
    (hstep : ∀ n place id fragment, subs.find? id = some fragment → fragment.place = place →
      (∀ l ∈ fragment.leaves, Settled subs l) →
      (∀ place inner, .hole place inner ∈ fragment.leaves → E n inner) → E (n + 1) id)
    (h : Settled subs (.hole place id)) : E (subs.size + 1) id := by
  refine Substitution.chain_induction (R := subs.Holds)
    (P := fun id => ∃ place, Settled subs (.hole place id)) ?_ ?_ ?_ ?_ ⟨place, h⟩
  · rintro id ⟨place, h⟩
    obtain ⟨fragment, hfound, _⟩ := h.cases
    exact ⟨fragment, hfound⟩
  · rintro id ⟨place, h⟩
    exact h.acyclic
  · rintro id inner ⟨place, h⟩ ⟨fragment, place, hother, hinner⟩
    obtain ⟨_, hfound, _, hleaves⟩ := h.cases
    cases hfound.symm.trans hother
    exact ⟨place, hleaves _ hinner⟩
  · rintro n id ⟨place, h⟩ hinner
    obtain ⟨fragment, hfound, hplace, hleaves⟩ := h.cases
    exact hstep n place id fragment hfound hplace hleaves fun place inner hmem =>
      hinner inner ⟨fragment, place, hfound, hmem⟩

theorem ends (h : Settled subs (.hole place id)) : subs.Ends (subs.size + 1) id := by
  refine h.chain_induction (E := subs.Ends) ?_
  rintro n _ id fragment hfound _ hleaves hends inner ⟨_, place, hother, hinner⟩
  cases hfound.symm.trans hother
  exact hends place inner (fragment.openIn (not_broken hleaves) _ hinner)

/-- What the layers of the substitution put into a settled hole is what it is bound to, its own holes
filled in the same way. -/
theorem filled_hole {e : Expr} (h : Settled subs (.hole .expr id))
    (hfound : subs.find? id = some (.expr e)) : (HoleFiller.ofSubstitution subs).expr id =
      e.filled (HoleFiller.ofSubstitution subs) := by
  have hsame : (HoleFiller.nested subs subs.size).Agrees (.nested subs (subs.size + 1)) (.expr, id) :=
    HoleFiller.nested_agrees (Nat.le_succ subs.size) h.ends
  rw [HoleFiller.Agrees] at hsame
  rw [HoleFiller.ofSubstitution, hsame, HoleFiller.nested, HoleFiller.filling]
  simp only [hfound]

/-- As many layers of the printer as a chain is long write the hole that it starts at. -/
def WrittenIn (subs : Substitution) : Nat → HoleId → Prop
  | 0, _ => False
  | n + 1, id => ∀ place, Settled subs (.hole place id) →
    (HolePrinter.nested subs n).Writes (.hole place id)

theorem writes (h : Settled subs leaf) : (HolePrinter.ofSubstitution subs).Writes leaf := by
  cases h with
  | param name => trivial
  | @hole place id fragment hfound hplace hleaves =>
    have h : Settled subs (.hole place id) := .hole hfound hplace hleaves
    refine h.chain_induction (E := WrittenIn subs) ?_ place h
    clear h hfound hplace hleaves
    rintro n _ id fragment hfound _ hleaves hinner place h
    obtain ⟨_, hother, rfl, _⟩ := h.cases
    cases hfound.symm.trans hother
    have hwrites : ∀ holes : HolePrinter, (∀ place inner, .hole place inner ∈ fragment.leaves →
        holes.Writes (.hole place inner)) → holes.WritesAll fragment.leaves := by
      intro holes hholes leaf hleaf
      have h := hleaves leaf hleaf
      cases h with
      | param name => trivial
      | hole _ _ _ => exact hholes _ _ hleaf
    cases n with
    | zero =>
      exact HolePrinter.filling_writes hfound
        (hwrites _ fun place inner hmem => (hinner place inner hmem).elim)
    | succ n =>
      exact HolePrinter.filling_writes hfound
        (hwrites _ fun place inner hmem => hinner place inner hmem place (hleaves _ hmem))

end Leaf.Settled

end ShapeSql.Sql
