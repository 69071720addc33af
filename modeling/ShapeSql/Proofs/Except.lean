import Mathlib.Data.List.Forall2

namespace ShapeSql

theorem except_bind_ok {ε α β : Type} {x : Except ε α} {f : α → Except ε β} {b : β} :
    (x >>= f) = .ok b ↔ ∃ a, x = .ok a ∧ f a = .ok b := by
  cases x with
  | error e =>
    constructor
    · intro h
      cases h
    · rintro ⟨_, h, _⟩
      cases h
  | ok a =>
    constructor
    · intro h
      exact ⟨a, rfl, h⟩
    · rintro ⟨_, h, hf⟩
      cases h
      exact hf

theorem except_map_ok {ε α β : Type} {x : Except ε α} {f : α → β} {b : β} :
    x.map f = .ok b ↔ ∃ a, x = .ok a ∧ f a = b := by
  cases x with
  | error e =>
    constructor
    · intro h
      cases h
    · rintro ⟨_, h, _⟩
      cases h
  | ok a =>
    constructor
    · intro h
      exact ⟨a, rfl, Except.ok.inj h⟩
    · rintro ⟨_, h, rfl⟩
      cases h
      rfl

/-- Errors told in another way are errors still. -/
theorem mapError_ok {ε ε' α : Type} {f : ε → ε'} {x : Except ε α} {a : α} :
    x.mapError f = .ok a ↔ x = .ok a := by
  cases x with
  | error e => exact ⟨nofun, nofun⟩
  | ok b => exact ⟨fun h => congrArg Except.ok (Except.ok.inj h), fun h => by rw [h]; rfl⟩

/-- What a loop yields, one of its steps yields. -/
theorem mem_of_mapM_ok {α β ε : Type} {f : α → Except ε β} {items : List α} {results : List β}
    (h : items.mapM f = .ok results) {b : β} (hb : b ∈ results) : ∃ a ∈ items, f a = .ok b := by
  induction items generalizing results with
  | nil =>
    cases h
    cases hb
  | cons a items ih =>
    rw [List.mapM_cons] at h
    obtain ⟨first, hfirst, h⟩ := except_bind_ok.mp h
    obtain ⟨rest, hrest, h⟩ := except_bind_ok.mp h
    cases h
    rcases List.mem_cons.mp hb with rfl | hmem
    · exact ⟨a, List.mem_cons_self, hfirst⟩
    · obtain ⟨a', ha', hb⟩ := ih hrest hmem
      exact ⟨a', List.mem_cons_of_mem _ ha', hb⟩

/-- What a loop makes of each item stands where the item stands. -/
theorem forall₂_of_mapM_ok {α β ε : Type} {f : α → Except ε β} {items : List α} {results : List β}
    (h : items.mapM f = .ok results) : List.Forall₂ (fun a b => f a = .ok b) items results := by
  induction items generalizing results with
  | nil =>
    cases h
    exact .nil
  | cons a items ih =>
    rw [List.mapM_cons] at h
    obtain ⟨first, hfirst, h⟩ := except_bind_ok.mp h
    obtain ⟨rest, hrest, h⟩ := except_bind_ok.mp h
    cases h
    exact .cons hfirst (ih hrest)

/-- A loop that ends well, as it goes before, at and after one of its items. -/
theorem mapM_around_ok {α β ε : Type} {f : α → Except ε β} {before after : List α} {a : α}
    {results : List β} (h : (before ++ a :: after).mapM f = .ok results) :
    ∃ first b rest, before.mapM f = .ok first ∧ f a = .ok b ∧ after.mapM f = .ok rest ∧
      results = first ++ b :: rest := by
  rw [List.mapM_append] at h
  obtain ⟨first, hfirst, h⟩ := except_bind_ok.mp h
  obtain ⟨others, hothers, h⟩ := except_bind_ok.mp h
  rw [List.mapM_cons] at hothers
  obtain ⟨b, hb, hothers⟩ := except_bind_ok.mp hothers
  obtain ⟨rest, hrest, hothers⟩ := except_bind_ok.mp hothers
  cases hothers
  cases h
  exact ⟨first, b, rest, hfirst, hb, hrest, rfl⟩

/-- A computation that ends well with a result that passes a test, both found by evaluating it. -/
theorem exists_ok_of_any {α ε : Type} {x : Except ε α} {p : α → Bool}
    (h : x.toOption.any p = true) : ∃ a, x = .ok a ∧ p a = true := by
  cases x with
  | error e => cases h
  | ok a => exact ⟨a, rfl, h⟩

theorem ok_of_toOption {α ε : Type} {x : Except ε α} {a : α} (h : x.toOption = some a) : x = .ok a := by
  cases x with
  | error e => cases h
  | ok b => exact congrArg Except.ok (Option.some.inj h)

theorem mapM_ok {α β ε : Type} {f : α → Except ε β} (items : List α)
    (h : ∀ a ∈ items, ∃ b, f a = .ok b) :
    ∃ bs, items.mapM f = .ok bs ∧ bs.length = items.length := by
  induction items with
  | nil => exact ⟨[], rfl, rfl⟩
  | cons a items ih =>
    obtain ⟨b, hb⟩ := h a List.mem_cons_self
    obtain ⟨bs, hbs, hlength⟩ := ih fun c hc => h c (List.mem_cons_of_mem a hc)
    refine ⟨b :: bs, ?_, by simp [hlength]⟩
    rw [List.mapM_cons, hb, hbs]
    rfl

theorem mapM_congr {α β ε : Type} {f g : α → Except ε β} {items : List α}
    (h : ∀ a ∈ items, f a = g a) : items.mapM f = items.mapM g := by
  induction items with
  | nil => rfl
  | cons a items ih =>
    rw [List.forall_mem_cons] at h
    rw [List.mapM_cons, List.mapM_cons, h.1, ih h.2]

theorem length_of_mapM_ok {α β ε : Type} {f : α → Except ε β} {items : List α} {results : List β}
    (h : items.mapM f = .ok results) : results.length = items.length := by
  induction items generalizing results with
  | nil =>
    cases h
    rfl
  | cons a items ih =>
    rw [List.mapM_cons] at h
    obtain ⟨first, _, h⟩ := except_bind_ok.mp h
    obtain ⟨rest, hrest, h⟩ := except_bind_ok.mp h
    cases h
    rw [List.length_cons, List.length_cons, ih hrest]

/-- A loop over some of the items yields the results of those. -/
theorem mapM_filter_ok {α β ε : Type} {f : α → Except ε β} {keep : α → Bool} (kept : β → Bool)
    {items : List α} {results : List β} (h : items.mapM f = .ok results)
    (hsame : ∀ a ∈ items, ∀ b, f a = .ok b → kept b = keep a) :
    (items.filter keep).mapM f = .ok (results.filter kept) := by
  induction items generalizing results with
  | nil =>
    cases h
    rfl
  | cons a items ih =>
    rw [List.mapM_cons] at h
    obtain ⟨first, hfirst, h⟩ := except_bind_ok.mp h
    obtain ⟨rest, hrest, h⟩ := except_bind_ok.mp h
    cases h
    rw [List.forall_mem_cons] at hsame
    have hothers := ih hrest hsame.2
    rw [List.filter_cons, List.filter_cons, hsame.1 first hfirst]
    cases keep a with
    | true =>
      rw [if_pos rfl, if_pos rfl, List.mapM_cons, hfirst, hothers]
      rfl
    | false => exact hothers

theorem forM_ok {α ε : Type} {f : α → Except ε Unit} {items : List α} :
    items.forM f = .ok () ↔ ∀ a ∈ items, f a = .ok () := by
  induction items with
  | nil => exact ⟨fun _ => List.forall_mem_nil _, fun _ => rfl⟩
  | cons a items ih =>
    have hstep : (a :: items).forM f = f a >>= fun _ => items.forM f := rfl
    rw [hstep, List.forall_mem_cons, except_bind_ok, ih]
    exact ⟨fun ⟨_, hfirst, hrest⟩ => ⟨hfirst, hrest⟩, fun ⟨hfirst, hrest⟩ => ⟨_, hfirst, hrest⟩⟩

section State

variable {ε σ α β : Type} {s s' : σ}

/-- Both steps succeed, and the second one starts where the first one ended. -/
theorem run_bind_ok {m : StateT σ (Except ε) α} {f : α → StateT σ (Except ε) β} {b : β} :
    (m >>= f).run s = .ok (b, s') ↔
      ∃ a between, m.run s = .ok (a, between) ∧ (f a).run between = .ok (b, s') := by
  rw [StateT.run_bind]
  cases hm : m.run s with
  | error e =>
    constructor
    · intro h
      cases h
    · rintro ⟨_, _, h, _⟩
      cases h
  | ok x =>
    constructor
    · intro h
      exact ⟨x.1, x.2, rfl, h⟩
    · rintro ⟨_, _, h, hf⟩
      cases h
      exact hf

theorem run_pure_ok {a b : α} :
    (pure a : StateT σ (Except ε) α).run s = .ok (b, s') ↔ a = b ∧ s = s' := by
  constructor
  · intro h
    cases h
    exact ⟨rfl, rfl⟩
  · rintro ⟨rfl, rfl⟩
    rfl

theorem run_lift_ok {x : Except ε α} {a : α} :
    (liftM x : StateT σ (Except ε) α).run s = .ok (a, s') ↔ x = .ok a ∧ s = s' := by
  cases x with
  | error e =>
    constructor
    · intro h
      cases h
    · rintro ⟨h, _⟩
      cases h
  | ok b =>
    constructor
    · intro h
      cases h
      exact ⟨rfl, rfl⟩
    · rintro ⟨h, rfl⟩
      cases h
      rfl

theorem run_throw_ok {e : ε} {a : α} :
    (throw e : StateT σ (Except ε) α).run s = .ok (a, s') ↔ False := by
  constructor
  · intro h
    cases h
  · exact False.elim

/-- What each step of a loop makes sure of, whatever the state, is true of all results. -/
theorem forall_of_run_mapM_ok {f : α → StateT σ (Except ε) β} {P : β → Prop}
    (hstep : ∀ a b s s', (f a).run s = .ok (b, s') → P b) {items : List α} {results : List β}
    (h : (items.mapM f).run s = .ok (results, s')) : ∀ b ∈ results, P b := by
  induction items generalizing s results with
  | nil =>
    rw [List.mapM_nil, run_pure_ok] at h
    rw [← h.1]
    exact nofun
  | cons a items ih =>
    rw [List.mapM_cons] at h
    simp only [run_bind_ok, run_pure_ok] at h
    obtain ⟨first, between, hfirst, others, after, hothers, rfl, rfl⟩ := h
    intro b hb
    rcases List.mem_cons.mp hb with rfl | hmem
    · exact hstep a b s between hfirst
    · exact ih hothers b hmem

/-- What each step of a loop makes of an item, the loop makes of it at the same place. -/
theorem forall₂_of_run_mapM_ok {f : α → StateT σ (Except ε) β} {P : α → β → Prop}
    (hstep : ∀ a b s s', (f a).run s = .ok (b, s') → P a b) {items : List α} {results : List β}
    (h : (items.mapM f).run s = .ok (results, s')) : List.Forall₂ P items results := by
  induction items generalizing s results with
  | nil =>
    rw [List.mapM_nil, run_pure_ok] at h
    rw [← h.1]
    exact .nil
  | cons a items ih =>
    rw [List.mapM_cons] at h
    simp only [run_bind_ok, run_pure_ok] at h
    obtain ⟨first, between, hfirst, others, after, hothers, rfl, rfl⟩ := h
    exact .cons (hstep a first s between hfirst) (ih hothers)

theorem mem_left_of_forall₂ {P : α → β → Prop} {items : List α} {results : List β}
    (h : List.Forall₂ P items results) {b : β} (hb : b ∈ results) : ∃ a ∈ items, P a b := by
  induction h with
  | nil => cases hb
  | cons hfirst _ ih =>
    rcases List.mem_cons.mp hb with rfl | hmem
    · exact ⟨_, List.mem_cons_self, hfirst⟩
    · obtain ⟨a, ha, hab⟩ := ih hmem
      exact ⟨a, List.mem_cons_of_mem _ ha, hab⟩

/-- What is related in order is related place by place. -/
theorem getElem?_of_forall₂ {P : α → β → Prop} {as : List α} {bs : List β}
    (h : List.Forall₂ P as bs) {i : Nat} {a : α} (ha : as[i]? = some a) :
    ∃ b, bs[i]? = some b ∧ P a b := by
  induction h generalizing i with
  | nil => cases ha
  | cons hab _ ih =>
    cases i with
    | zero =>
      cases ha
      exact ⟨_, rfl, hab⟩
    | succ i => exact ih ha

theorem run_modifyGet_ok {f : σ → α × σ} {a : α} :
    (modifyGet f : StateT σ (Except ε) α).run s = .ok (a, s') ↔ f s = (a, s') := by
  constructor
  · intro h
    exact Except.ok.inj h
  · intro h
    exact congrArg Except.ok h

end State

end ShapeSql
