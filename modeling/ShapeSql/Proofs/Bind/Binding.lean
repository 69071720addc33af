import ShapeSql.Proofs.Bind.Filling
import ShapeSql.Proofs.Sql.Write

namespace ShapeSql

open Sql

/-- One of the rules, filled with its value, has the property. -/
def Filled (s : Schema) (args : Value) (rules : List HoleRule) (P : HoleRule → Filling → Prop) :
    Prop :=
  ∃ rule ∈ rules, ∃ f, rule.fill s (args.entry rule.path) = .ok f ∧ P rule f

theorem filled_snoc {s : Schema} {args : Value} {rules : List HoleRule} {rule : HoleRule}
    {f : Filling} (hfill : rule.fill s (args.entry rule.path) = .ok f)
    {P : HoleRule → Filling → Prop} :
    Filled s args (rules ++ [rule]) P ↔ Filled s args rules P ∨ P rule f := by
  constructor
  · rintro ⟨other, hother, g, hg, hP⟩
    rcases List.mem_append.mp hother with hold | hnew
    · exact Or.inl ⟨other, hold, g, hg, hP⟩
    · rw [List.mem_singleton.mp hnew] at hg hP
      rw [hfill] at hg
      cases hg
      exact Or.inr hP
  · rintro (⟨other, hother, hfilled⟩ | hP)
    · exact ⟨other, List.mem_append_left _ hother, hfilled⟩
    · exact ⟨rule, List.mem_append_right _ (List.mem_singleton.mpr rfl), f, hfill, hP⟩

/-- What binding the rules in order amounts to. -/
structure Binding.Binds (s : Schema) (args : Value) (rules : List HoleRule) (b : Binding) :
    Prop where
  layered : b.subs.Layered
  holes : b.subs.fragments.map Prod.fst = rules.map HoleRule.hole
  filled : ∀ rule ∈ rules, ∃ f, rule.fill s (args.entry rule.path) = .ok f ∧
    b.subs.find? rule.hole = some f.fragment
  bound : ∀ id fragment, b.subs.find? id = some fragment →
    Filled s args rules fun rule f => rule.hole = id ∧ f.fragment = fragment
  added : ∀ name, name ∈ b.added.names ↔
    Filled s args rules fun _ f => name ∈ f.added.map Prod.fst
  distinct : b.added.names.Nodup
  removed : ∀ name, name ∈ b.removed ↔ Filled s args rules fun _ f => name ∈ f.removed
  unassigned : b.assigned = none → ∀ rule ∈ rules, rule.action.place ≠ .assignments
  assigned : b.assigned = some true → Filled s args rules fun rule f =>
    rule.action.place = .assignments ∧ ∃ first rest, f.fragment = .assignments (first :: rest)

theorem Layered.index_lt {rules : List HoleRule} (h : Layered rules) :
    ∀ rule ∈ rules, rule.hole.index < rules.length := by
  induction h with
  | nil => exact nofun
  | @snoc rules rule _ hnumber _ ih =>
    intro other hother
    rw [List.length_append, List.length_singleton]
    rcases List.mem_append.mp hother with hold | hnew
    · have := ih other hold
      omega
    · rw [List.mem_singleton.mp hnew, hnumber]
      show rules.length < rules.length + 1
      omega

namespace Sql.Substitution

/-- The substitution with one more hole bound. -/
def snoc (subs : Substitution) (hole : HoleId) (fragment : Fragment) : Substitution :=
  ⟨subs.fragments ++ [(hole, fragment)]⟩

theorem find?_snoc_of_some {subs : Substitution} {hole id : HoleId} {fragment other : Fragment}
    (h : subs.find? id = some other) : (subs.snoc hole fragment).find? id = some other := by
  obtain ⟨entry, hentry, rfl⟩ := Option.map_eq_some_iff.mp h
  rw [find?, snoc, List.find?_append, hentry]
  rfl

theorem find?_snoc_self {subs : Substitution} {hole : HoleId} {fragment : Fragment}
    (h : subs.find? hole = none) : (subs.snoc hole fragment).find? hole = some fragment := by
  have hnone := Option.map_eq_none_iff.mp h
  rw [find?, snoc, List.find?_append, hnone, Option.none_or, List.find?_singleton,
    if_pos (beq_self_eq_true hole)]
  rfl

theorem find?_snoc_cases {subs : Substitution} {hole id : HoleId} {fragment other : Fragment}
    (h : (subs.snoc hole fragment).find? id = some other) :
    subs.find? id = some other ∨ (hole = id ∧ fragment = other) := by
  rw [find?, snoc, List.find?_append] at h
  cases hfound : subs.fragments.find? fun entry => entry.1 == id with
  | some entry =>
    left
    rw [hfound] at h
    rw [find?, hfound]
    exact h
  | none =>
    right
    rw [hfound, Option.none_or, List.find?_singleton] at h
    split at h
    · rename_i heq
      cases h
      exact ⟨eq_of_beq heq, rfl⟩
    · cases h

/-- One more layer: a fragment whose holes are numbered below its own hole, and bound. -/
theorem Layered.snoc {subs : Substitution} (h : subs.Layered) {hole : HoleId} {fragment : Fragment}
    (hindex : hole.index ≤ subs.size) (hleaves : ∀ l ∈ fragment.leaves, subs.Below hole l) :
    (subs.snoc hole fragment).Layered := by
  have hmono : ∀ (outer : HoleId) (l : Leaf), subs.Below outer l →
      (subs.snoc hole fragment).Below outer l := by
    intro outer l hl
    cases l with
    | param name => trivial
    | hole place inner =>
      obtain ⟨hlt, other, hother, hplace⟩ := hl
      exact ⟨hlt, other, find?_snoc_of_some hother, hplace⟩
    | broken fault => exact hl
  have hsize : (subs.snoc hole fragment).size = subs.size + 1 := by
    show (subs.fragments ++ [(hole, fragment)]).length = subs.fragments.length + 1
    rw [List.length_append, List.length_singleton]
  constructor
  · intro id other hother l hl
    rcases find?_snoc_cases hother with hold | ⟨rfl, rfl⟩
    · exact hmono _ _ (h.below id other hold l hl)
    · exact hmono _ _ (hleaves l hl)
  · intro id other hother
    rw [hsize]
    rcases find?_snoc_cases hother with hold | ⟨rfl, _⟩
    · have hbefore := h.size id other hold
      omega
    · omega

end Sql.Substitution

namespace Binding

variable {s : Schema} {args : Value} {rules : List HoleRule} {rule : HoleRule}

theorem binds_default : (default : Binding).Binds s args [] where
  layered := ⟨nofun, nofun⟩
  holes := rfl
  filled := nofun
  bound := nofun
  added name := ⟨nofun, fun ⟨_, h, _⟩ => by cases h⟩
  distinct := List.nodup_nil
  removed name := ⟨nofun, fun ⟨_, h, _⟩ => by cases h⟩
  unassigned _ := nofun
  assigned := nofun

/-- The hole with the next number is not bound yet. -/
theorem Binds.find?_next {b : Binding} (hb : b.Binds s args rules) (hrules : Layered rules)
    (hnumber : rule.hole = ⟨rules.length⟩) : b.subs.find? rule.hole = none := by
  cases hfound : b.subs.find? rule.hole with
  | none => rfl
  | some fragment =>
    obtain ⟨other, hother, _, _, hsame, _⟩ := hb.bound _ _ hfound
    have hlt : other.hole.index < rules.length := hrules.index_lt other hother
    rw [hsame, hnumber] at hlt
    exact absurd hlt (Nat.lt_irrefl _)

/-- What an assignment comes to, and any other rule does not. -/
theorem noteAssigned_cases {value : Value} {f : Filling} (hfill : rule.fill s value = .ok f)
    (seen : Option Bool) :
    (rule.action.place ≠ .assignments ∧ noteAssigned seen rule.action f.fragment = seen) ∨
    (rule.action.place = .assignments ∧
      noteAssigned seen rule.action f.fragment = some (seen.getD false)) ∨
    (rule.action.place = .assignments ∧ noteAssigned seen rule.action f.fragment = some true ∧
      ∃ first rest, f.fragment = .assignments (first :: rest)) := by
  obtain ⟨hole, path, action⟩ := rule
  cases action with
  | assign column param ignore =>
    right
    rcases HoleRule.fill_assign hfill with ⟨_, rfl⟩ | ⟨_, rfl⟩
    · exact Or.inl ⟨rfl, rfl⟩
    · exact Or.inr ⟨rfl, rfl, _, _, rfl⟩
  | predicate p => exact Or.inl ⟨nofun, rfl⟩
  | guard ignore expr => exact Or.inl ⟨nofun, rfl⟩
  | order expr => exact Or.inl ⟨nofun, rfl⟩
  | dynamicOrder first others => exact Or.inl ⟨nofun, rfl⟩
  | rows source => exact Or.inl ⟨nofun, rfl⟩
  | keyMatch columns base => exact Or.inl ⟨nofun, rfl⟩

/-- The fragment of a rule whose holes are filled by rules before has bound holes of smaller numbers. -/
theorem Binds.below {b : Binding} (hb : b.Binds s args rules) (hrules : Layered rules)
    (hnumber : rule.hole = ⟨rules.length⟩) (hleaves : ∀ l ∈ rule.action.leaves, l.FilledBy rules)
    (hothers : ∀ rule ∈ rules, rule.action.Fits) {f : Filling} (hserves : f.Serves rule.action) :
    ∀ l ∈ f.fragment.leaves, b.subs.Below rule.hole l := by
  intro l hl
  rcases hserves.leaves l hl with hrule | ⟨name, rfl, _⟩
  · have hfilled := hleaves l hrule
    cases l with
    | param name => trivial
    | broken fault => exact hfilled.elim
    | hole place inner =>
      obtain ⟨other, hother, rfl, rfl⟩ := hfilled
      obtain ⟨g, hg, hfound⟩ := hb.filled other hother
      refine ⟨?_, g.fragment, hfound, (HoleRule.fill_serves (hothers other hother) hg).place⟩
      rw [hnumber]
      exact hrules.index_lt other hother
  · trivial

/-- A filled rule whose hole has the next number keeps the invariant. -/
theorem Binds.snoc {b : Binding} (hb : b.Binds s args rules) (hrules : Layered rules)
    (hnumber : rule.hole = ⟨rules.length⟩) (hleaves : ∀ l ∈ rule.action.leaves, l.FilledBy rules)
    (hfits : rule.action.Fits) (hothers : ∀ rule ∈ rules, rule.action.Fits) {f : Filling}
    (hfill : rule.fill s (args.entry rule.path) = .ok f) :
    ({ subs := b.subs.snoc rule.hole f.fragment
       added := f.added.foldl (fun params p => Record.insert params p.1 p.2) b.added
       removed := f.removed ++ b.removed
       assigned := noteAssigned b.assigned rule.action f.fragment } : Binding).Binds s args
      (rules ++ [rule]) := by
  have hserves := HoleRule.fill_serves hfits hfill
  have hfresh := hb.find?_next hrules hnumber
  have hsize : b.subs.size = rules.length := by
    have hlength := congrArg List.length hb.holes
    rw [List.length_map, List.length_map] at hlength
    exact hlength
  constructor
  case layered =>
    apply hb.layered.snoc
    · rw [hnumber]
      show rules.length ≤ b.subs.size
      omega
    · exact hb.below hrules hnumber hleaves hothers hserves
  case holes =>
    show (b.subs.fragments ++ [(rule.hole, f.fragment)]).map Prod.fst = _
    rw [List.map_append, List.map_append, hb.holes]
    rfl
  case filled =>
    intro other hother
    rcases List.mem_append.mp hother with hold | hnew
    · obtain ⟨g, hg, hfound⟩ := hb.filled other hold
      exact ⟨g, hg, Substitution.find?_snoc_of_some hfound⟩
    · rw [List.mem_singleton.mp hnew]
      exact ⟨f, hfill, Substitution.find?_snoc_self hfresh⟩
  case bound =>
    intro id fragment hfound
    rw [filled_snoc hfill]
    rcases Substitution.find?_snoc_cases hfound with hold | hnew
    · exact Or.inl (hb.bound id fragment hold)
    · exact Or.inr hnew
  case added =>
    intro name
    rw [filled_snoc hfill, Record.mem_names_insertAll, hb.added]
  case distinct => exact Record.nodup_names_insertAll f.added hb.distinct
  case removed =>
    intro name
    rw [filled_snoc hfill, List.mem_append, hb.removed]
    exact or_comm
  case unassigned =>
    intro hnone other hother
    rcases noteAssigned_cases hfill b.assigned with ⟨hplace, hsame⟩ | ⟨_, hsome⟩ | ⟨_, hsome, _⟩
    · rcases List.mem_append.mp hother with hold | hnew
      · exact hb.unassigned (hsame ▸ hnone) other hold
      · rw [List.mem_singleton.mp hnew]
        exact hplace
    · exact nomatch hsome.symm.trans hnone
    · exact nomatch hsome.symm.trans hnone
  case assigned =>
    intro htrue
    rw [filled_snoc hfill]
    rcases noteAssigned_cases hfill b.assigned with ⟨_, hsame⟩ | ⟨_, hsome⟩ | ⟨hplace, _, hfragment⟩
    · exact Or.inl (hb.assigned (hsame ▸ htrue))
    · have hseen := Option.some.inj (hsome.symm.trans htrue)
      refine Or.inl (hb.assigned ?_)
      cases hbefore : b.assigned with
      | none =>
        rw [hbefore] at hseen
        cases hseen
      | some seen =>
        rw [hbefore] at hseen
        exact congrArg some hseen
    · exact Or.inr ⟨hplace, hfragment⟩

/-- Filling one more hole refuses the value or keeps the invariant; the hole is not bound before. -/
theorem step_binds {b : Binding} (hb : b.Binds s args rules) (hrules : Layered rules)
    (hnumber : rule.hole = ⟨rules.length⟩) (hleaves : ∀ l ∈ rule.action.leaves, l.FilledBy rules)
    (hfits : rule.action.Fits) (hothers : ∀ rule ∈ rules, rule.action.Fits) :
    (∃ e, b.step s args rule = .error (.refused e)) ∨
      ∃ b', b.step s args rule = .ok b' ∧ b'.Binds s args (rules ++ [rule]) := by
  cases hfill : rule.fill s (args.entry rule.path) with
  | error e =>
    left
    refine ⟨e, ?_⟩
    rw [step, hfill]
    rfl
  | ok f =>
    right
    have hsnoc := hb.snoc hrules hnumber hleaves hfits hothers hfill
    refine ⟨_, ?_, hsnoc⟩
    have hfresh := hb.find?_next hrules hnumber
    have hinsert : b.subs.insert rule.hole f.fragment = .ok (b.subs.snoc rule.hole f.fragment) := by
      simp only [Substitution.insert, hfresh]
      rfl
    rw [step, hfill]
    show (faulty (b.subs.insert rule.hole f.fragment) >>= _) = _
    rw [hinsert]
    rfl

/-- Layered rules bind all of their holes, or refuse a value. -/
theorem ofRules_binds (s : Schema) (args : Value) (hrules : Layered rules)
    (hfits : ∀ rule ∈ rules, rule.action.Fits) :
    (∃ e, ofRules s rules args = .error (.refused e)) ∨
      ∃ b, ofRules s rules args = .ok b ∧ b.Binds s args rules := by
  induction hrules with
  | nil => exact Or.inr ⟨default, rfl, binds_default⟩
  | @snoc rules rule hlayered hnumber hleaves ih =>
    have hothers : ∀ rule ∈ rules, rule.action.Fits :=
      fun other hother => hfits other (List.mem_append_left _ hother)
    have hrule := hfits rule (List.mem_append_right _ (List.mem_singleton.mpr rfl))
    simp only [ofRules, List.foldlM_append, List.foldlM_cons, List.foldlM_nil, bind_pure] at ih ⊢
    rcases ih hothers with ⟨e, he⟩ | ⟨b, hb, hbinds⟩
    · left
      refine ⟨e, ?_⟩
      rw [he]
      rfl
    · rw [hb]
      have hstep := step_binds hbinds hlayered hnumber hleaves hrule hothers
      rcases hstep with ⟨e, he⟩ | ⟨b', hb', hsnoc⟩
      · exact Or.inl ⟨e, he⟩
      · exact Or.inr ⟨b', hb', hsnoc⟩

end Binding

end ShapeSql
