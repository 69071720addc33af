import Mathlib.Data.List.Pairwise
import ShapeSql.Proofs.Plan.NamesApart
import ShapeSql.Proofs.Plan.Steps

namespace ShapeSql

open Sql Planning

namespace Names

/-- No text lies in its own space, for every derived name is longer than its base. -/
theorem not_inSpace_of_lowerAscii_eq {base name : String} (h : lowerAscii base = lowerAscii name) :
    ¬ InSpace base name := by
  intro hspace
  obtain ⟨tail, htail, htext⟩ := inSpace_iff.mp hspace
  rw [h, List.self_eq_append_right] at htext
  rw [htext] at htail
  cases htail

/-- Every base is taken, and no taken name lies in its space. -/
structure Reserves (n : Names) : Prop where
  taken : ∀ b ∈ n.bases, b ∈ n.taken
  clear : ∀ base name, lowerAscii base ∈ n.bases → lowerAscii name ∈ n.taken → ¬ InSpace base name

variable {n : Names}

/-- A name that is free lies in no space, and neither does any other spelling of it. -/
theorem not_inSpace_of_isFree {base name fresh : String} (hfree : n.isFree fresh = true)
    (hname : lowerAscii name = lowerAscii fresh) (hbase : lowerAscii base ∈ n.bases) :
    ¬ InSpace base name := by
  refine not_inSpace_of_derives ?_
  rw [hname]
  exact ((isFree_iff _ _).mp hfree).2 _ hbase

theorem Reserves.single (hn : n.Reserves) (wanted : String) : (n.single wanted).2.Reserves where
  taken b hb := List.mem_cons_of_mem _ (hn.taken b hb)
  clear base name hbase hname := by
    rcases List.mem_cons.mp hname with hnew | hold
    · exact not_inSpace_of_isFree (unused_isFree n wanted) hnew hbase
    · exact hn.clear base name hbase hold

theorem Reserves.base (hn : n.Reserves) (wanted : String) : (n.base wanted).2.Reserves where
  taken b hb := by
    rcases List.mem_cons.mp hb with rfl | hold
    · exact List.mem_cons_self
    · exact List.mem_cons_of_mem _ (hn.taken b hold)
  clear base name hbase hname := by
    obtain ⟨hfree, hoff⟩ := (isFreeBase_iff _ _).mp (unused_isFreeBase n wanted)
    rcases List.mem_cons.mp hbase with hnewBase | holdBase
    · rcases List.mem_cons.mp hname with hnew | hold
      · exact not_inSpace_of_lowerAscii_eq (hnewBase.trans hnew.symm)
      · refine not_inSpace_of_derives ?_
        rw [hnewBase]
        exact hoff _ hold
    · rcases List.mem_cons.mp hname with hnew | hold
      · exact not_inSpace_of_isFree hfree hnew holdBase
      · exact hn.clear base name holdBase hold

end Names

namespace Action

variable {action : Action}

theorem of_isPlain (h : action.isPlain = true) :
    action.base? = none ∧ action.cellNames = [] ∧ ∀ p, action ≠ .predicate p := by
  cases action with
  | guard _ _ | order _ | dynamicOrder _ _ | assign _ _ _ => exact ⟨rfl, rfl, nofun⟩
  | predicate _ | rows _ | keyMatch _ _ => cases h

/-- Rows have a base for their cells or a name for each. -/
theorem cellNames_of_base? {base : String} (h : action.base? = some base) : action.cellNames = [] := by
  cases action with
  | rows source => cases hnames : source.names <;> simp_all [base?, cellNames]
  | _ => rfl

/-- What an action keeps for itself is its base, a name of its space, or a name of a cell. -/
theorem owns_cases {name : String} (h : action.Owns name) :
    (∃ base, action.base? = some base ∧ (name = base ∨ Names.InSpace base name)) ∨
      name ∈ action.cellNames := by
  cases action with
  | predicate p =>
    obtain ⟨hkind, hname⟩ := h
    refine .inl ⟨p.param, if_pos hkind, hname.imp id ?_⟩
    rintro ⟨i, rfl⟩
    exact Names.derives_iff.mp (Names.derives_itemName p.param i)
  | rows source =>
    cases hnames : source.names with
    | fields names =>
      simp only [Owns, hnames] at h
      exact .inr (by simpa only [cellNames, hnames] using h)
    | derived base =>
      simp only [Owns, hnames] at h
      obtain ⟨row, column, rfl⟩ := h
      refine .inl ⟨base, by simp only [base?, hnames], .inr ?_⟩
      exact Names.derives_iff.mp (Names.derives_cellName base row column)
  | keyMatch columns base =>
    refine .inl ⟨base, rfl, .inr ?_⟩
    obtain ⟨i, rfl | ⟨j, rfl⟩⟩ := h
    · exact Names.derives_iff.mp (Names.derives_itemName base i)
    · exact Names.derives_iff.mp (Names.derives_itemName_itemName base i j)
  | guard _ _ | order _ | dynamicOrder _ _ | assign _ _ _ => exact h.elim

end Action

/-- Two rules that derive parameters derive them from different bases. -/
def HoleRule.BasesApart (rule other : HoleRule) : Prop :=
  ∀ base base', rule.action.base? = some base → other.action.base? = some base' →
    sameName base base' = false

/-- A parameter of the path, in the form that the comparison reads. -/
def Predicate.DeclaredIn (p : Predicate) (path : Path) (params : List Param) : Prop :=
  ∃ q ∈ params, q.name = p.param ∧ q.path = path ∧ p.kind.Reads q.transform

/-- Names are kept for the rules that make parameters, and comparisons have theirs. -/
structure Draft.Reserved (d : Draft) : Prop where
  names : d.names.Reserves
  based : ∀ rule ∈ d.rules, ∀ base, rule.action.base? = some base → lowerAscii base ∈ d.names.bases
  cells : ∀ rule ∈ d.rules, ∀ name ∈ rule.action.cellNames, lowerAscii name ∈ d.names.taken
  apart : d.rules.Pairwise HoleRule.BasesApart
  compared : ∀ rule ∈ d.rules, ∀ p, rule.action = .predicate p → p.kind ≠ .inList →
    p.DeclaredIn rule.path d.params

namespace Draft

variable {d d' : Draft}

theorem reserved_default : (default : Draft).Reserved where
  names := ⟨nofun, nofun⟩
  based := nofun
  cells := nofun
  apart := .nil
  compared := nofun

/-- A draft with the same rules that forgets nothing keeps what is reserved. -/
theorem Reserved.of_rules_eq (hd : d.Reserved) (hnames : d'.names.Reserves) (hrules : d'.rules = d.rules)
    (htaken : ∀ t ∈ d.names.taken, t ∈ d'.names.taken)
    (hbases : ∀ b ∈ d.names.bases, b ∈ d'.names.bases)
    (hparams : ∀ q ∈ d.params, q ∈ d'.params) : d'.Reserved where
  names := hnames
  based rule hrule base hbase := hbases _ (hd.based rule (hrules ▸ hrule) base hbase)
  cells rule hrule name hname := htaken _ (hd.cells rule (hrules ▸ hrule) name hname)
  apart := hrules ▸ hd.apart
  compared rule hrule p haction hkind := by
    obtain ⟨q, hq, hdeclared⟩ := hd.compared rule (hrules ▸ hrule) p haction hkind
    exact ⟨q, hparams q hq, hdeclared⟩

/-- A base that no rule derives parameters from. -/
def Unclaimed (d : Draft) (base : String) : Prop :=
  lowerAscii base ∈ d.names.bases ∧
    ∀ rule ∈ d.rules, ∀ base', rule.action.base? = some base' → sameName base' base = false

/-- A rule is recorded if no other rule has its base, its cells have taken names, and it compares with a
parameter of its own path. -/
theorem Reserved.rule (hd : d.Reserved) {path : Path} {action : Action} {hole : HoleId}
    (hbase : ∀ base, action.base? = some base → d.Unclaimed base)
    (hcells : ∀ name ∈ action.cellNames, lowerAscii name ∈ d.names.taken)
    (hcompared : ∀ p, action = .predicate p → p.kind ≠ .inList → p.DeclaredIn path d.params)
    (hrun : (Planning.rule path action).run d = .ok (hole, d')) : d'.Reserved := by
  cases hrun
  exact {
    names := hd.names
    based := by
      intro rule hrule base hsome
      rcases List.mem_append.mp hrule with hold | hnew
      · exact hd.based rule hold base hsome
      · rw [List.mem_singleton.mp hnew] at hsome
        exact (hbase base hsome).1
    cells := by
      intro rule hrule name hname
      rcases List.mem_append.mp hrule with hold | hnew
      · exact hd.cells rule hold name hname
      · rw [List.mem_singleton.mp hnew] at hname
        exact hcells name hname
    apart := by
      refine List.pairwise_append.mpr ⟨hd.apart, List.pairwise_singleton _ _, ?_⟩
      intro rule hrule other hother base base' hsome hsome'
      rw [List.mem_singleton.mp hother] at hsome'
      exact (hbase base' hsome').2 rule hrule base hsome
    compared := by
      intro rule hrule p haction hkind
      rcases List.mem_append.mp hrule with hold | hnew
      · exact hd.compared rule hold p haction hkind
      · rw [List.mem_singleton.mp hnew] at haction ⊢
        exact hcompared p haction hkind }

theorem Reserved.param (hd : d.Reserved) {path : Path} {transform : Transform} {name : String}
    (hrun : (Planning.param path transform).run d = .ok (name, d')) : d'.Reserved := by
  rcases param_cases hrun with ⟨rfl, _⟩ | ⟨_, rfl⟩
  · exact hd
  · exact hd.of_rules_eq (hd.names.single path.paramName) rfl (fun _ ht => List.mem_cons_of_mem _ ht)
      (fun _ hb => hb) fun _ hq => List.mem_append_left _ hq

/-- A base is new when it is taken. -/
theorem Reserved.baseName (hd : d.Reserved) {wanted base : String}
    (hrun : (Planning.baseName wanted).run d = .ok (base, d')) : d'.Reserved ∧ d'.Unclaimed base := by
  cases hrun
  have hfree := ((Names.isFreeBase_iff _ _).mp (Names.unused_isFreeBase d.names wanted)).1
  refine ⟨?_, List.mem_cons_self, fun rule hrule base' hsome => ?_⟩
  · exact hd.of_rules_eq (hd.names.base wanted) rfl (fun _ ht => List.mem_cons_of_mem _ ht)
      (fun _ hb => List.mem_cons_of_mem _ hb) fun _ hq => hq
  · refine beq_eq_false_iff_ne.mpr fun hsame => ?_
    exact ((Names.isFree_iff _ _).mp hfree).1 (hsame ▸ hd.names.taken _ (hd.based rule hrule base' hsome))

/-- Every step keeps what is reserved. -/
theorem Reserved.step (hd : d.Reserved) (h : d.Step d') : d'.Reserved := by
  cases h with
  | param hrun => exact hd.param hrun
  | single hrun =>
    cases hrun
    exact hd.of_rules_eq (hd.names.single _) rfl (fun _ ht => List.mem_cons_of_mem _ ht)
      (fun _ hb => hb) fun _ hq => hq
  | aliased hrun =>
    cases hrun
    exact hd.of_rules_eq hd.names rfl (fun _ ht => ht) (fun _ hb => hb) fun _ hq => hq
  | @plain path action hole _ hplain hrun =>
    obtain ⟨hbase, hcells, hother⟩ := Action.of_isPlain hplain
    refine hd.rule (fun base hsome => ?_) (fun name hname => ?_) (fun p haction => ?_) hrun
    · rw [hbase] at hsome
      cases hsome
    · rw [hcells] at hname
      cases hname
    · exact absurd haction (hother p)
  | @based wanted base path action hole between _ hbase hsome hrun =>
    obtain ⟨hbetween, hnew⟩ := hd.baseName hbase
    refine hbetween.rule (fun base' hsome' => ?_) (fun name hname => ?_) (fun p haction hkind => ?_) hrun
    · obtain rfl := Option.some.inj (hsome.symm.trans hsome')
      exact hnew
    · rw [Action.cellNames_of_base? hsome] at hname
      cases hname
    · rw [haction, Action.base?, if_neg hkind] at hsome
      cases hsome
  | @compared path transform p hole between _ hparam hkind hreads hrun =>
    obtain ⟨q, hq, hname, hpath, htransform⟩ := declared_of_param hparam
    refine (hd.param hparam).rule (fun base hsome => ?_) (List.forall_mem_nil _) (fun p' haction _ => ?_)
      hrun
    · rw [Action.base?, if_neg hkind] at hsome
      cases hsome
    · cases haction
      exact ⟨q, hq, hname, hpath, htransform ▸ hreads⟩
  | row hnames htaken hrun =>
    refine hd.rule (fun base hsome => ?_) (fun name hname => ?_) (fun p haction => ?_) hrun
    · simp only [Action.base?, hnames] at hsome
      cases hsome
    · simp only [Action.cellNames, hnames] at hname
      exact htaken name hname
    · cases haction

/-- What is reserved stays so in a whole run. -/
theorem Reserved.steps (hd : d.Reserved) (h : d.Steps d') : d'.Reserved := by
  induction h with
  | refl => exact hd
  | tail _ hstep ih => exact ih.step hstep

end Draft

/-- What lies in the space of a base is left to the rule of that base. -/
theorem Draft.Reserved.not_owns {d : Draft} (hd : d.Reserved) {rule other : HoleRule}
    (hrule : rule ∈ d.rules) (hother : other ∈ d.rules) (hne : rule ≠ other) {base name : String}
    (hbase : rule.action.base? = some base) (hspace : Names.InSpace base name) :
    ¬ other.action.Owns name := by
  have hreserved := hd.based rule hrule base hbase
  have htaken : ∀ r ∈ d.rules, ∀ b, r.action.base? = some b → lowerAscii b ∈ d.names.taken :=
    fun r hr b hb => hd.names.taken _ (hd.based r hr b hb)
  have hsymm : Std.Symm HoleRule.BasesApart :=
    ⟨fun r r' h base base' hr hr' => (sameName_comm _ _).trans (h base' base hr' hr)⟩
  intro howns
  rcases Action.owns_cases howns with ⟨base', hbase', rfl | hspace'⟩ | hcell
  · exact hd.names.clear base _ hreserved (htaken other hother _ hbase') hspace
  · have hapart := hd.apart.forall hrule hother hne base base' hbase hbase'
    rcases Names.bases_of_inSpace hspace hspace' (sameName_self name) with hsame | hin | hin
    · rw [hapart] at hsame
      cases hsame
    · exact hd.names.clear base base' hreserved (htaken other hother base' hbase') hin
    · exact hd.names.clear base' base (hd.based other hother base' hbase')
        (htaken rule hrule base hbase) hin
  · exact hd.names.clear base name hreserved (hd.cells other hother name hcell) hspace

end ShapeSql
