import Mathlib.Logic.Relation
import ShapeSql.Proofs.Except
import ShapeSql.Proofs.Tree

namespace ShapeSql.Tree

variable {α : Type}

mutual

theorem length_arenaFrom (next : Nat) (parent : Option Nat) :
    ∀ t : Tree α, (t.arenaFrom next parent).length = t.size
  | .node a kids => by rw [arenaFrom, List.length_cons, length_arenaFromAll _ _ kids, size]

theorem length_arenaFromAll (next parent : Nat) :
    ∀ ts : List (Tree α), (arenaFromAll next parent ts).length = sizeAll ts
  | [] => rfl
  | t :: ts => by
    rw [arenaFromAll, List.length_append, length_arenaFrom, length_arenaFromAll _ _ ts, sizeAll]

end

mutual

/-- An entry is numbered by its place behind those that come first. -/
theorem id_of_arenaFrom : ∀ (t : Tree α) {next : Nat} {parent : Option Nat} {k : Nat} {e : Entry α},
    (t.arenaFrom next parent)[k]? = some e → e.id = next + k
  | .node a kids, next, parent, k, e, h => by
    rw [arenaFrom] at h
    cases k with
    | zero =>
      cases h
      rfl
    | succ k =>
      have hid := id_of_arenaFromAll kids h
      omega

theorem id_of_arenaFromAll : ∀ (ts : List (Tree α)) {next parent k : Nat} {e : Entry α},
    (arenaFromAll next parent ts)[k]? = some e → e.id = next + k
  | [], _, _, _, _, h => nomatch h
  | t :: ts, next, parent, k, e, h => by
    rw [arenaFromAll, List.getElem?_append, length_arenaFrom] at h
    split at h
    · exact id_of_arenaFrom t h
    · have hid := id_of_arenaFromAll ts h
      omega

end

theorem arenaFrom_cons (t : Tree α) (next : Nat) (parent : Option Nat) :
    ⟨next, t.label, parent, positions (next + 1) t.children⟩ ∈ t.arenaFrom next parent := by
  obtain ⟨a, kids⟩ := t
  exact List.mem_cons_self

theorem exists_of_mem_positions {ts : List (Tree α)} {next parent c : Nat}
    (h : c ∈ positions next ts) :
    ∃ e ∈ arenaFromAll next parent ts, e.id = c ∧ e.parent = some parent := by
  induction ts generalizing next with
  | nil => cases h
  | cons t ts ih =>
    rw [positions] at h
    rw [arenaFromAll]
    rcases List.mem_cons.mp h with rfl | hrest
    · exact ⟨_, List.mem_append_left _ (arenaFrom_cons t _ _), rfl, rfl⟩
    · obtain ⟨e, he, hlinks⟩ := ih hrest
      exact ⟨e, List.mem_append_right _ he, hlinks⟩

theorem le_of_mem_positions {ts : List (Tree α)} {next c : Nat} (h : c ∈ positions next ts) :
    next ≤ c := by
  induction ts generalizing next with
  | nil => cases h
  | cons t ts ih =>
    rw [positions] at h
    rcases List.mem_cons.mp h with rfl | hrest
    · exact Nat.le_refl _
    · have := ih hrest
      omega

theorem size_pos (t : Tree α) : 0 < t.size := by
  obtain ⟨a, kids⟩ := t
  rw [size]
  omega

theorem positions_increase (next : Nat) (ts : List (Tree α)) :
    (positions next ts).Pairwise (· < ·) := by
  induction ts generalizing next with
  | nil => exact .nil
  | cons t ts ih =>
    rw [positions, List.pairwise_cons]
    refine ⟨fun c hc => ?_, ih _⟩
    have hle := le_of_mem_positions hc
    have hsize := size_pos t
    omega

mutual

/-- An entry is the first one, or a child of an entry before it. -/
theorem parent_of_arenaFrom : ∀ (t : Tree α) {next : Nat} {parent : Option Nat} {e : Entry α},
    e ∈ t.arenaFrom next parent → (e.id = next ∧ e.parent = parent) ∨
      ∃ e' ∈ t.arenaFrom next parent, e.parent = some e'.id ∧ e.id ∈ e'.children ∧ e'.id < e.id
  | .node a kids, next, parent, e, h => by
    rw [arenaFrom] at h ⊢
    rcases List.mem_cons.mp h with rfl | hbelow
    · exact Or.inl ⟨rfl, rfl⟩
    · right
      rcases parent_of_arenaFromAll kids hbelow with ⟨hposition, hparent⟩ | ⟨e', he', hlinks⟩
      · refine ⟨_, List.mem_cons_self, hparent, hposition, ?_⟩
        have := le_of_mem_positions hposition
        show next < e.id
        omega
      · exact ⟨e', List.mem_cons_of_mem _ he', hlinks⟩

theorem parent_of_arenaFromAll : ∀ (ts : List (Tree α)) {next parent : Nat} {e : Entry α},
    e ∈ arenaFromAll next parent ts →
      (e.id ∈ positions next ts ∧ e.parent = some parent) ∨
      ∃ e' ∈ arenaFromAll next parent ts,
        e.parent = some e'.id ∧ e.id ∈ e'.children ∧ e'.id < e.id
  | [], _, _, _, h => nomatch h
  | t :: ts, next, parent, e, h => by
    rw [arenaFromAll] at h ⊢
    rw [positions]
    rcases List.mem_append.mp h with hfirst | hrest
    · rcases parent_of_arenaFrom t hfirst with ⟨hid, hparent⟩ | ⟨e', he', hlinks⟩
      · exact Or.inl ⟨hid ▸ List.mem_cons_self, hparent⟩
      · exact Or.inr ⟨e', List.mem_append_left _ he', hlinks⟩
    · rcases parent_of_arenaFromAll ts hrest with ⟨hposition, hparent⟩ | ⟨e', he', hlinks⟩
      · exact Or.inl ⟨List.mem_cons_of_mem _ hposition, hparent⟩
      · exact Or.inr ⟨e', List.mem_append_right _ he', hlinks⟩

end

mutual

/-- The children of an entry have it as their parent. -/
theorem child_of_arenaFrom : ∀ (t : Tree α) {next : Nat} {parent : Option Nat} {e : Entry α},
    e ∈ t.arenaFrom next parent → e.children.Pairwise (· < ·) ∧ ∀ c ∈ e.children,
      ∃ e' ∈ t.arenaFrom next parent, e'.id = c ∧ e'.parent = some e.id
  | .node a kids, next, parent, e, h => by
    rw [arenaFrom] at h ⊢
    rcases List.mem_cons.mp h with rfl | hbelow
    · refine ⟨positions_increase _ kids, fun c hc => ?_⟩
      obtain ⟨e', he', hlinks⟩ : ∃ e' ∈ arenaFromAll (next + 1) next kids,
          e'.id = c ∧ e'.parent = some next := exists_of_mem_positions hc
      exact ⟨e', List.mem_cons_of_mem _ he', hlinks⟩
    · obtain ⟨hincrease, hchildren⟩ := child_of_arenaFromAll kids hbelow
      refine ⟨hincrease, fun c hc => ?_⟩
      obtain ⟨e', he', hlinks⟩ := hchildren c hc
      exact ⟨e', List.mem_cons_of_mem _ he', hlinks⟩

theorem child_of_arenaFromAll : ∀ (ts : List (Tree α)) {next parent : Nat} {e : Entry α},
    e ∈ arenaFromAll next parent ts → e.children.Pairwise (· < ·) ∧ ∀ c ∈ e.children,
      ∃ e' ∈ arenaFromAll next parent ts, e'.id = c ∧ e'.parent = some e.id
  | [], _, _, _, h => nomatch h
  | t :: ts, next, parent, e, h => by
    rw [arenaFromAll] at h ⊢
    rcases List.mem_append.mp h with hfirst | hrest
    · obtain ⟨hincrease, hchildren⟩ := child_of_arenaFrom t hfirst
      refine ⟨hincrease, fun c hc => ?_⟩
      obtain ⟨e', he', hlinks⟩ := hchildren c hc
      exact ⟨e', List.mem_append_left _ he', hlinks⟩
    · obtain ⟨hincrease, hchildren⟩ := child_of_arenaFromAll ts hrest
      refine ⟨hincrease, fun c hc => ?_⟩
      obtain ⟨e', he', hlinks⟩ := hchildren c hc
      exact ⟨e', List.mem_append_right _ he', hlinks⟩

end

/-- `c` is one of the children of the entry at `p`. -/
def LinksTo (entries : List (Entry α)) (p c : Nat) : Prop :=
  ∃ e, entries[p]? = some e ∧ c ∈ e.children

/-- Entries numbered by their positions, parents before children, whose links up and down mirror each
other and reach every entry from the first one. -/
structure Linked (entries : List (Entry α)) : Prop where
  numbered : ∀ (i : Nat) (e : Entry α), entries[i]? = some e → e.id = i
  parents : ∀ (i : Nat) (e : Entry α), entries[i]? = some e →
    (e.parent = none ↔ i = 0) ∧ ∀ p, e.parent = some p → p < i
  mirrored : ∀ p c, LinksTo entries p c ↔ ∃ e, entries[c]? = some e ∧ e.parent = some p
  increasing : ∀ e ∈ entries, e.children.Pairwise (· < ·)
  reachable : ∀ i < entries.length, Relation.ReflTransGen (LinksTo entries) 0 i

theorem arena_getElem? {t : Tree α} {e : Entry α} (h : e ∈ t.arena) : t.arena[e.id]? = some e := by
  obtain ⟨i, hi⟩ := List.mem_iff_getElem?.mp h
  have hid := id_of_arenaFrom t hi
  rw [Nat.zero_add] at hid
  rw [hid]
  exact hi

theorem arena_linked (t : Tree α) : Linked t.arena := by
  have hnumbered : ∀ (i : Nat) (e : Entry α), t.arena[i]? = some e → e.id = i := by
    intro i e h
    have hid := id_of_arenaFrom t h
    omega
  have hparent : ∀ (i : Nat) (e : Entry α), t.arena[i]? = some e →
      (i = 0 ∧ e.parent = none) ∨ ∃ p, e.parent = some p ∧ p < i ∧ LinksTo t.arena p i := by
    intro i e h
    rw [← hnumbered i e h]
    rcases parent_of_arenaFrom t (List.mem_of_getElem? h) with hroot | ⟨e', he', hlinks⟩
    · exact Or.inl hroot
    · exact Or.inr ⟨e'.id, hlinks.1, hlinks.2.2, e', arena_getElem? he', hlinks.2.1⟩
  refine ⟨hnumbered, ?_, ?_, fun e he => (child_of_arenaFrom t he).1, ?_⟩
  · intro i e h
    rcases hparent i e h with ⟨hi, hnone⟩ | ⟨p, hp, hlt, _⟩
    · refine ⟨iff_of_true hnone hi, fun p hp => ?_⟩
      cases hnone.symm.trans hp
    · refine ⟨iff_of_false ?_ (by omega), fun other hother => ?_⟩
      · rw [hp]
        exact Option.some_ne_none p
      · cases hp.symm.trans hother
        exact hlt
  · intro p c
    constructor
    · rintro ⟨e, he, hc⟩
      obtain ⟨e', he', rfl, hlink⟩ := (child_of_arenaFrom t (List.mem_of_getElem? he)).2 c hc
      rw [hnumbered p e he] at hlink
      exact ⟨e', arena_getElem? he', hlink⟩
    · rintro ⟨e, he, hp⟩
      rcases hparent c e he with ⟨_, hnone⟩ | ⟨q, hq, _, hlinks⟩
      · cases hnone.symm.trans hp
      · cases hq.symm.trans hp
        exact hlinks
  · -- Going up ends at the first entry, since numbers decrease.
    intro i
    induction i using Nat.strongRecOn with
    | ind i ih =>
      intro hi
      obtain ⟨e, he⟩ : ∃ e, t.arena[i]? = some e := ⟨_, List.getElem?_eq_getElem hi⟩
      rcases hparent i e he with ⟨rfl, _⟩ | ⟨p, _, hlt, hlinks⟩
      · exact .refl
      · exact (ih p hlt (Nat.lt_trans hlt hi)).tail hlinks

section Visits

/-- Going up from a parent, the labels met are these, nearest first. -/
inductive LeadsUp (entries : List (Entry α)) : Option Nat → List α → Prop where
  | top : LeadsUp entries none []
  | step {p : Nat} {e : Entry α} {above : List α} : entries[p]? = some e →
    LeadsUp entries e.parent above → LeadsUp entries (some p) (e.label :: above)

theorem LeadsUp.ancestors_eq {entries : List (Entry α)} {parent : Option Nat} {above : List α}
    (h : LeadsUp entries parent above) {id steps : Nat}
    (hid : entries[id]?.bind Entry.parent = parent) (hsteps : above.length ≤ steps) :
    (ancestors entries steps id).map Entry.label = above := by
  induction h generalizing id steps with
  | top =>
    cases steps with
    | zero => rfl
    | succ steps =>
      rw [ancestors, hid]
      rfl
  | @step p e above hp _ ih =>
    cases steps with
    | zero => cases hsteps
    | succ steps =>
      have hup : entries[p]?.bind Entry.parent = e.parent := by rw [hp]; rfl
      rw [ancestors, hid]
      show ((entries[p]?).toList ++ ancestors entries steps p).map Entry.label = _
      rw [hp, Option.toList_some, List.singleton_append, List.map_cons,
        ih hup (Nat.le_of_succ_le_succ hsteps)]

/-- A walk up takes no more steps than there are numbers below. -/
theorem LeadsUp.length_le {entries : List (Entry α)} (hlinked : Linked entries) {parent : Option Nat}
    {above : List α} (h : LeadsUp entries parent above) {i : Nat} (hi : ∀ p, parent = some p → p < i) :
    above.length ≤ i := by
  induction h generalizing i with
  | top => exact Nat.zero_le i
  | @step p e above hp _ ih =>
    have hlt := hi p rfl
    have hrest := ih fun q hq => (hlinked.parents p e hp).2 q hq
    rw [List.length_cons]
    omega

/-- The entry stands for the visit: its links lead to entries with the labels around it. -/
structure Stands (entries : List (Entry α)) (e : Entry α) (v : Visit α) : Prop where
  label : e.label = v.label
  above : LeadsUp entries e.parent v.ancestors
  below : e.children.filterMap (fun c => entries[c]?.map Entry.label) = v.children

theorem labels_of_positions {entries : List (Entry α)} {ts : List (Tree α)} {next parent : Nat}
    (h : ∀ e ∈ arenaFromAll next parent ts, entries[e.id]? = some e) :
    (positions next ts).filterMap (fun c => entries[c]?.map Entry.label) = ts.map label := by
  induction ts generalizing next with
  | nil => rfl
  | cons t ts ih =>
    rw [arenaFromAll, List.forall_mem_append] at h
    have hfirst := h.1 _ (arenaFrom_cons t next (some parent))
    rw [positions, List.filterMap_cons, hfirst, ih h.2]
    rfl

mutual

theorem arenaFrom_stands {entries : List (Entry α)} : ∀ (t : Tree α) {next : Nat}
    {parent : Option Nat} {above : List α}, (∀ e ∈ t.arenaFrom next parent, entries[e.id]? = some e) →
    LeadsUp entries parent above →
      List.Forall₂ (Stands entries) (t.arenaFrom next parent) (t.visitsBelow above)
  | .node a kids, next, parent, above, hentries, habove => by
    rw [arenaFrom, List.forall_mem_cons] at hentries
    rw [arenaFrom, visitsBelow]
    refine .cons ⟨rfl, habove, labels_of_positions hentries.2⟩ ?_
    exact arenaFromAll_stands kids hentries.2 (.step hentries.1 habove)

theorem arenaFromAll_stands {entries : List (Entry α)} : ∀ (ts : List (Tree α)) {next parent : Nat}
    {above : List α}, (∀ e ∈ arenaFromAll next parent ts, entries[e.id]? = some e) →
    LeadsUp entries (some parent) above →
      List.Forall₂ (Stands entries) (arenaFromAll next parent ts) (visitsBelowAll above ts)
  | [], _, _, _, _, _ => .nil
  | t :: ts, next, parent, above, hentries, habove => by
    rw [arenaFromAll, List.forall_mem_append] at hentries
    rw [arenaFromAll, visitsBelowAll]
    exact List.rel_append (arenaFrom_stands t hentries.1 habove)
      (arenaFromAll_stands ts hentries.2 habove)

end

/-- An entry with the labels that its links lead to. -/
def Entry.visit (entries : List (Entry α)) (e : Entry α) : Visit α where
  label := e.label
  ancestors := (ancestors entries e.id e.id).map Entry.label
  children := e.children.filterMap fun c => entries[c]?.map Entry.label

/-- The visits of a tree are its entries, seen with what their links lead to. -/
theorem arena_visits (t : Tree α) : t.arena.map (Entry.visit t.arena) = t.visits := by
  have hstands : List.Forall₂ (Stands t.arena) t.arena t.visits :=
    arenaFrom_stands t (fun e he => arena_getElem? he) .top
  have hlinked := arena_linked t
  have hall : ∀ e ∈ t.arena, ∀ v, Stands t.arena e v → e.visit t.arena = v := by
    rintro e he ⟨label, above, children⟩ ⟨rfl, habove, rfl⟩
    have hplace := arena_getElem? he
    have hlength := habove.length_le hlinked (hlinked.parents e.id e hplace).2
    rw [Entry.visit, habove.ancestors_eq (by rw [hplace]; rfl) hlength]
  have hsame := ((List.forall₂_and_left _ _).mpr ⟨fun _ h => h, hstands⟩).imp
    fun e v (h : e ∈ t.arena ∧ _) => hall e h.1 v h.2
  rw [← List.forall₂_map_left_iff, List.forall₂_eq_eq_eq] at hsame
  exact hsame

end Visits

end ShapeSql.Tree
