import ShapeSql.Proofs.Bind.KeyMatched
import ShapeSql.Proofs.Bind.Prefix
import ShapeSql.Proofs.Plan.Reserved

/-!
A condition on a column is true exactly where the comparison that was asked for says so, also where the cell
or the value is null: an equality with null asks for null, a null member of a list is matched by null, and an
empty list is matched by nothing, so that its negation is always true.
-/

namespace ShapeSql

open Sql

/-- Both are null, or both are there and equal. -/
def Sql.World.Matches (w : World) (cell own : Value) : Prop :=
  (cell.isNull = true ∧ own.isNull = true) ∨ w.Equal cell own

/-- Of two values that are there, an operator says the opposite of its negation. -/
def Sql.Dialect.Complements (d : Dialect) (a b : Value) : Prop :=
  a.isNull = false → b.isNull = false → d.compare .ne a b = !d.compare .eq a b ∧
    d.compare .ge a b = !d.compare .lt a b ∧ d.compare .gt a b = !d.compare .le a b

theorem Sql.Dialect.Complements.negate {d : Dialect} {a b : Value} (h : d.Complements a b)
    (ha : a.isNull = false) (hb : b.isNull = false) (op : CompareOp) :
    d.compare op.negate a b = !d.compare op a b := by
  obtain ⟨hne, hge, hgt⟩ := h ha hb
  cases op <;> simp only [CompareOp.negate, hne, hge, hgt, Bool.not_not]

/-- Neither form of a parameter that is compared refuses a value. -/
theorem PredicateKind.Reads.apply_ok {kind : PredicateKind} {transform : Transform}
    (h : kind.Reads transform) (path : Path) (value : Value) :
    ∃ own, transform.apply path value = .ok own := by
  cases kind with
  | like =>
    obtain ⟨mode, rfl⟩ := h
    cases value <;> exact ⟨_, rfl⟩
  | eq | compare _ | inList =>
    obtain rfl : transform = .asIs := h
    exact ⟨value, rfl⟩

namespace Predicate

/-- What a comparison with a value asks of a cell; LIKE compares the pattern made of the value. -/
def Asks (w : World) (p : Predicate) (value pattern cell : Value) : Prop :=
  match p.kind, p.negate with
  | .eq, false => w.Matches cell value
  | .eq, true =>
    cell.isNull = false ∧ (value.isNull = false → w.dialect.compare .eq cell value = false)
  | .inList, false => ∃ item ∈ value.items, w.Matches cell item
  | .inList, true =>
    value.items = [] ∨ cell.isNull = false ∧ ∀ item ∈ value.items, ¬ w.Equal cell item
  | .compare op, negate =>
    cell.isNull = false ∧ value.isNull = false ∧ w.dialect.compare op cell value = !negate
  | .like, negate =>
    if value.isNull then cell.isNull = !negate
    else cell.isNull = false ∧ w.dialect.like cell pattern = !negate

/-- What is compared in place of a value: LIKE makes a pattern of it, all others take it as it is. -/
def Compares (p : Predicate) (path : Path) (value own : Value) : Prop :=
  ∃ transform, p.kind.Reads transform ∧ transform.apply path value = .ok own

/-- The parameters that the condition reads have their values. -/
def SuppliedBy (p : Predicate) (params : Params) (value own : Value) : Prop :=
  Brings params (p.fill value).added ∧
    (p.kind ≠ .inList → (p.fill value).removed = [] → params.getExact? p.param = some own)

variable {w : World} {env : Env} {f : HoleFiller} {p : Predicate}

section Lists

variable {items : List Value} {cell own : Value} {e : Expr}

theorem not_equal_of_isNull (h : own.isNull = true) : ¬ w.Equal cell own :=
  fun hequal => absurd (h.symm.trans hequal.2.1) (by decide)

/-- Null members take no part in the comparisons. -/
theorem exists_members :
    (∃ m ∈ p.members items, w.Equal cell m.2) ↔ ∃ item ∈ items, w.Equal cell item := by
  rw [members, exists_mem_map_zipIdx (Q := fun item => w.Equal cell item) fun _ _ => Iff.rfl]
  refine exists_congr fun item => ⟨fun h => ⟨(List.mem_filter.mp h.1).1, h.2⟩, fun h => ⟨?_, h.2⟩⟩
  exact List.mem_filter.mpr ⟨h.1, by simpa using h.2.2.1⟩

theorem forall_members (hsome : ∃ item ∈ items, item.isNull = false) :
    (∀ m ∈ p.members items, cell.isNull = false ∧ m.2.isNull = false ∧ ¬ w.Equal cell m.2) ↔
      cell.isNull = false ∧ ∀ item ∈ items, ¬ w.Equal cell item := by
  rw [members, forall_mem_map_zipIdx (Q := fun item => cell.isNull = false ∧ item.isNull = false ∧
    ¬ w.Equal cell item) fun _ _ => Iff.rfl]
  simp only [List.mem_filter, Bool.not_eq_true']
  constructor
  · intro h
    obtain ⟨first, hfirst, hthere⟩ := hsome
    refine ⟨(h first ⟨hfirst, hthere⟩).1, fun item hitem => ?_⟩
    cases hnull : item.isNull with
    | true => exact not_equal_of_isNull hnull
    | false => exact (h item ⟨hitem, hnull⟩).2.2
  · exact fun h item hitem => ⟨h.1, hitem.2, h.2 item hitem.1⟩

/-- A member is matched where it is null and the cell is, or where the two are equal. -/
theorem exists_matches : (∃ item ∈ items, w.Matches cell item) ↔
    (∃ item ∈ items, w.Equal cell item) ∨ cell.isNull = true ∧ ∃ item ∈ items, item.isNull = true := by
  simp only [World.Matches, and_or_left, exists_or]
  rw [or_comm]
  refine or_congr_right ⟨?_, ?_⟩
  · rintro ⟨item, hitem, hcell, hnull⟩
    exact ⟨hcell, item, hitem, hnull⟩
  · rintro ⟨hcell, item, hitem, hnull⟩
    exact ⟨item, hitem, hcell, hnull⟩

/-- Of a negated list the cell surely differs from all values. -/
theorem holds_notKeyList {added : List (String × Value)} (hparams : Brings w.params added)
    (column : Expr) :
    ((Expr.inList column (added.map fun m => .param m.1) true).filled f).holds w env = true ↔
      ∀ m ∈ added, ((column.filled f).value w env).isNull = false ∧ m.2.isNull = false ∧
        ¬ w.Equal ((column.filled f).value w env) m.2 := by
  rw [Expr.filled, exprsFilled_eq, List.map_map, Expr.holds_notInList, List.all_map, List.all_eq_true]
  refine forall₂_congr fun m hm => ?_
  rw [Function.comp_apply, Function.comp_apply, Expr.filled, value_param (hparams m hm),
    World.holds_not_compare]
  simp +contextual [World.Equal, and_assoc]

theorem holds_nulls (column : Expr) (negated : Bool) :
    ((Expr.isNull column negated).filled f).holds w env = true ↔
      ((column.filled f).value w env).isNull = !negated := by
  rw [Expr.filled, Expr.holds_isNull]
  cases negated <;> simp

/-- A list asks for one of its members, and for null where it has nulls. -/
theorem holds_inList (hdiscerns : w.dialect.Discerns) (hnegate : p.negate = false)
    (hparams : Brings w.params (p.inList items).added) (he : (p.inList items).fragment = .expr e) :
    (e.filled f).holds w env = true ↔
      ∃ item ∈ items, w.Matches ((p.column.filled f).value w env) item := by
  have hnone : (∀ item ∈ items, item.isNull = true) →
      ¬ ∃ item ∈ items, w.Equal ((p.column.filled f).value w env) item :=
    fun hnulls ⟨item, hitem, hequal⟩ => not_equal_of_isNull (hnulls item hitem) hequal
  rcases p.inList_cases items with ⟨rfl, hfill⟩ | ⟨hne, hnulls, hfill⟩ | ⟨_, hall, hfill⟩ |
    ⟨_, hnull, hfill⟩
  all_goals
    rw [hfill, hnegate] at he
    rw [hfill] at hparams
    obtain rfl := Fragment.expr.inj he
    rw [exists_matches]
  · rw [if_neg Bool.false_ne_true, Expr.filled_contradiction, Expr.holds_contradiction hdiscerns]
    simp
  · obtain ⟨first, hfirst⟩ := List.exists_mem_of_ne_nil _ hne
    rw [holds_nulls, or_iff_right (hnone hnulls)]
    exact (and_iff_left ⟨first, hfirst, hnulls first hfirst⟩).symm
  · rw [holds_keyList hparams, exists_members, or_iff_left]
    rintro ⟨_, item, hitem, hnull⟩
    rw [hall item hitem] at hnull
    cases hnull
  · rw [if_neg Bool.false_ne_true, Expr.holds_or hdiscerns, Bool.or_eq_true, holds_keyList hparams,
      exists_members, holds_nulls]
    exact or_congr_right (and_iff_left hnull).symm

theorem holds_notInList (hnegate : p.negate = true)
    (hparams : Brings w.params (p.inList items).added) (he : (p.inList items).fragment = .expr e) :
    (e.filled f).holds w env = true ↔ items = [] ∨
      ((p.column.filled f).value w env).isNull = false ∧
        ∀ item ∈ items, ¬ w.Equal ((p.column.filled f).value w env) item := by
  rcases p.inList_cases items with ⟨rfl, hfill⟩ | ⟨hne, hnulls, hfill⟩ |
    ⟨⟨first, hfirst, hthere⟩, hall, hfill⟩ | ⟨⟨first, hfirst, hthere⟩, _, hfill⟩
  all_goals
    rw [hfill, hnegate] at he
    rw [hfill] at hparams
    obtain rfl := Fragment.expr.inj he
  · rw [if_pos rfl, Expr.filled_tautology, Expr.holds_tautology]
    simp
  · rw [holds_nulls, or_iff_right hne]
    exact (and_iff_left fun item hitem => not_equal_of_isNull (hnulls item hitem)).symm
  · rw [holds_notKeyList hparams, forall_members ⟨first, hfirst, hthere⟩,
      or_iff_right (List.ne_nil_of_mem hfirst)]
  · rw [if_pos rfl, Expr.holds_and, Bool.and_eq_true, holds_notKeyList hparams,
      forall_members ⟨first, hfirst, hthere⟩, holds_nulls, or_iff_right (List.ne_nil_of_mem hfirst)]
    exact and_iff_left_of_imp And.left

end Lists

section Values

variable {value own : Value} {e : Expr}

theorem holds_compared (op : CompareOp) (hparam : w.params.getExact? p.param = some own) :
    ((Expr.compare p.column op (.param p.param)).filled f).holds w env = true ↔
      ((p.column.filled f).value w env).isNull = false ∧ own.isNull = false ∧
        w.dialect.compare op ((p.column.filled f).value w env) own = true := by
  rw [Expr.filled, Expr.filled, Expr.holds_compare, value_param hparam, World.holds_compare]
  simp [and_assoc]

theorem holds_like (negated : Bool) (hparam : w.params.getExact? p.param = some own) :
    ((Expr.like p.column (.param p.param) negated).filled f).holds w env = true ↔
      ((p.column.filled f).value w env).isNull = false ∧ own.isNull = false ∧
        w.dialect.like ((p.column.filled f).value w env) own = !negated := by
  rw [Expr.filled, Expr.filled, Expr.holds, Expr.truth, value_param hparam]
  cases negated with
  | false => simp [World.holds_like, and_assoc]
  | true => simp [World.holds_not_like, and_assoc]

/-- A pattern is null where the value is, and values other than patterns are compared as they are. -/
theorem Compares.isNull {path : Path} (h : p.Compares path value own) :
    own.isNull = value.isNull ∧ (p.kind ≠ .like → own = value) := by
  obtain ⟨transform, hreads, happly⟩ := h
  cases hkind : p.kind with
  | like =>
    rw [hkind] at hreads
    obtain ⟨mode, rfl⟩ := hreads
    refine ⟨?_, fun hother => absurd rfl hother⟩
    cases value <;> cases happly <;> rfl
  | eq | compare _ | inList =>
    rw [hkind] at hreads
    obtain rfl : transform = .asIs := hreads
    cases happly
    exact ⟨rfl, fun _ => rfl⟩

section Asked

variable {cell : Value}

/-- Of null an equality and LIKE ask the same. -/
theorem asks_null (hkind : p.kind = .eq ∨ p.kind = .like) (hnull : value.isNull = true) :
    p.Asks w value own cell ↔ cell.isNull = !p.negate := by
  rcases hkind with hkind | hkind
  · cases hnegate : p.negate with
    | false =>
      simp only [Asks, hkind, hnegate, World.Matches, hnull, and_true]
      exact or_iff_left (not_equal_of_isNull hnull)
    | true => simp [Asks, hkind, hnegate, hnull]
  · simp only [Asks, hkind, hnull, if_true]

theorem asks_inList (hkind : p.kind = .inList) : p.Asks w value own cell ↔
    if p.negate then value.items = [] ∨ cell.isNull = false ∧ ∀ item ∈ value.items, ¬ w.Equal cell item
    else ∃ item ∈ value.items, w.Matches cell item := by
  cases hnegate : p.negate <;> simp [Asks, hkind, hnegate]

theorem asks_compare {op : CompareOp}
    (hkind : p.kind = .compare op ∨ p.kind = .eq ∧ op = .eq ∧ value.isNull = false) :
    p.Asks w value own cell ↔ cell.isNull = false ∧ value.isNull = false ∧
      w.dialect.compare op cell value = !p.negate := by
  rcases hkind with hkind | ⟨hkind, rfl, hthere⟩
  · simp only [Asks, hkind]
  · cases hnegate : p.negate <;> simp [Asks, hkind, hnegate, World.Matches, World.Equal, hthere]

end Asked

section Holding

variable {path : Path} (hkept : isIgnored p.ignore value = false) (hcompares : p.Compares path value own)
  (hsupplied : p.SuppliedBy w.params value own) (he : (p.fill value).fragment = .expr e)

include hkept hcompares hsupplied he

theorem holds_operator {op : CompareOp}
    (hkind : p.kind = .compare op ∨ p.kind = .eq ∧ op = .eq ∧ value.isNull = false)
    (hcomplements : w.dialect.Complements ((p.column.filled f).value w env) value) :
    (e.filled f).holds w env = true ↔ p.Asks w value own ((p.column.filled f).value w env) := by
  have hother : p.kind ≠ .inList ∧ p.kind ≠ .like := by
    rcases hkind with hkind | ⟨hkind, _⟩
    all_goals rw [hkind]; exact ⟨nofun, nofun⟩
  obtain rfl := hcompares.isNull.2 hother.2
  have hfill := fill_compare hkept hkind
  have hparam := hsupplied.2 hother.1 (by rw [hfill]; rfl)
  rw [hfill] at he
  obtain rfl := Fragment.expr.inj he
  rw [holds_compared _ hparam, asks_compare hkind]
  refine and_congr_right fun hcell => and_congr_right fun hthere => ?_
  cases p.negate with
  | false => rfl
  | true => simp [hcomplements.negate hcell hthere op]

/-- The condition of a comparison that is not left out is true exactly for the cells that it asks for. -/
theorem holds_fill (hdiscerns : w.dialect.Discerns)
    (hcomplements : p.kind ≠ .inList →
      w.dialect.Complements ((p.column.filled f).value w env) value) :
    (e.filled f).holds w env = true ↔ p.Asks w value own ((p.column.filled f).value w env) := by
  -- An equality and LIKE have one condition for null, so that case comes before those of the kinds.
  by_cases hnull : (p.kind = .eq ∨ p.kind = .like) ∧ value.isNull = true
  · rw [fill_null hkept hnull.1 hnull.2] at he
    obtain rfl := Fragment.expr.inj he
    rw [holds_nulls, asks_null hnull.1 hnull.2]
  cases hkind : p.kind with
  | inList =>
    have hfill := fill_inList hkept hkind
    have hbrings := hsupplied.1
    rw [hfill] at he hbrings
    rw [asks_inList hkind]
    cases hnegate : p.negate with
    | false => simpa using holds_inList hdiscerns hnegate hbrings he
    | true => simpa using holds_notInList hnegate hbrings he
  | eq =>
    have hthere : value.isNull = false := by simpa [hkind] using hnull
    exact holds_operator hkept hcompares hsupplied he (.inr ⟨hkind, rfl, hthere⟩)
      (hcomplements (hkind ▸ nofun))
  | compare op =>
    exact holds_operator hkept hcompares hsupplied he (.inl hkind) (hcomplements (hkind ▸ nofun))
  | like =>
    have hthere : value.isNull = false := by simpa [hkind] using hnull
    have hfill := fill_like hkept hkind hthere
    have hparam := hsupplied.2 (hkind ▸ nofun) (by rw [hfill]; rfl)
    rw [hfill] at he
    obtain rfl := Fragment.expr.inj he
    rw [holds_like _ hparam, hcompares.isNull.1]
    simp [Asks, hkind, hthere]

end Holding

end Values

theorem exists_fill (p : Predicate) (value : Value) : ∃ e, (p.fill value).fragment = .expr e := by
  have hplace := (p.fill_serves value).place
  match hfragment : (p.fill value).fragment with
  | .expr e => exact ⟨e, rfl⟩
  | .order _ | .assignments _ | .rows _ =>
    rw [hfragment] at hplace
    cases hplace

/-- Only a list brings parameters: one for each member. -/
theorem mem_added {value : Value} {m : String × Value} (h : m ∈ (p.fill value).added) :
    p.kind = .inList ∧ m ∈ p.members value.items := by
  have hmakes := p.fill_makes value
  generalize p.fill value = f at hmakes h
  cases hmakes with
  | list _ hkind => exact ⟨hkind, h⟩
  | nothing | null | compare | like => cases h

/-- The names of the members lie in the space of the base, each in a place of its own. -/
theorem members_inSpace {items : List Value} {m : String × Value} (h : m ∈ p.members items) :
    Names.InSpace p.param m.1 := by
  obtain ⟨⟨item, place⟩, _, rfl⟩ := List.mem_map.mp h
  exact Names.derives_iff.mp (Names.derives_itemName p.param place)

theorem members_apart (p : Predicate) (items : List Value) :
    (p.members items).Pairwise fun m n => sameName m.1 n.1 = false :=
  List.pairwise_map.mpr ((zipIdx_apart _).imp fun hplaces => itemName_apart (.inl hplaces))

end Predicate

section Planned

variable {s : Schema} {args : Value}

/-- The parameters that the rules bring are made of those that each of them brings. -/
theorem Binding.added_of_rules {rules : List HoleRule} {b : Binding} (h : ofRules s rules args = .ok b) :
    ∃ members, b.added = Record.ofMembers members ∧
      ∀ m, m ∈ members ↔ Filled s args rules fun _ f => m ∈ f.added := by
  obtain ⟨fillings, hfillings, hadded⟩ := ofRules_added h
  refine ⟨_, hadded, fun m => ?_⟩
  clear h hadded
  induction hfillings with
  | nil => simp [Filled]
  | @cons rule f rules fillings hfill _ ih =>
    rw [List.flatMap_cons, List.mem_append, ih]
    simp [Filled, hfill]

/-- All that a list brings is bound, for no other rule brings a parameter of one of its names. -/
theorem Plan.Sound.brings_members {plan : Plan} (hplan : plan.Sound) {d : Draft} (hd : d.Reserved)
    (hrules : plan.rules = d.rules) {b : Binding} (hb : Binding.ofRules s plan.rules args = .ok b)
    {rule : HoleRule} (hrule : rule ∈ plan.rules) {p : Predicate} (haction : rule.action = .predicate p) :
    ∀ m ∈ (p.fill (args.entry rule.path)).added, m ∈ b.added := by
  obtain ⟨members, hadded, hmembers⟩ := Binding.added_of_rules hb
  have hfill : rule.fill s (args.entry rule.path) = .ok (p.fill (args.entry rule.path)) := by
    rw [HoleRule.fill, haction]
  intro m hm
  obtain ⟨hkind, hmember⟩ := Predicate.mem_added hm
  rw [hadded]
  refine Record.mem_ofMembers ((hmembers m).mpr ⟨rule, hrule, _, hfill, hm⟩) fun other hother hsame => ?_
  obtain ⟨rule', hrule', f, hf, hbrought⟩ := (hmembers other).mp hother
  by_cases hrules' : rule = rule'
  · subst hrules'
    obtain rfl := Except.ok.inj (hfill.symm.trans hf)
    exact List.inj_on_of_nodup_map (nodup_of_apart (p.members_apart _)) (Predicate.mem_added hbrought).2
      hmember hsame
  · have hbase : rule.action.base? = some p.param := by rw [haction, Action.base?, if_pos hkind]
    have howns := (HoleRule.fill_serves (hplan.fits rule' hrule') hf).owned _
      (List.mem_map_of_mem hbrought)
    rw [hrules] at hrule hrule'
    rw [hsame] at howns
    exact absurd howns (hd.not_owns hrule hrule' hrules' hbase (Predicate.members_inSpace hmember))

/-- What a sound plan is bound to has the condition of every comparison, and the parameters that it reads
where no other comparison takes them back. -/
theorem Plan.Sound.supplied {plan : Plan} (hplan : plan.Sound) {d : Draft} (hd : d.Reserved)
    (hrules : plan.rules = d.rules) {subs : Substitution} {params : Params}
    (hsubs : plan.substitution s args = .ok (subs, params)) {rule : HoleRule} (hrule : rule ∈ plan.rules)
    {p : Predicate} (haction : rule.action = .predicate p) {own : Value}
    (hdeclared : p.kind ≠ .inList → ∃ q ∈ plan.params, q.name = p.param ∧ q.path = rule.path ∧
      q.transform.apply q.path (args.entry q.path) = .ok own) :
    subs.find? rule.hole = some (p.fill (args.entry rule.path)).fragment ∧
      ((p.kind ≠ .inList → (Filled s args plan.rules fun other f =>
          other.action.param? = some p.param ∧ p.param ∈ f.removed) →
            (p.fill (args.entry rule.path)).removed ≠ []) →
        p.SuppliedBy params (args.entry rule.path) own) := by
  obtain ⟨b, declared, hb, hbinds, _, hread, hnew, rfl, rfl⟩ := hplan.substitution_inv hsubs
  have hfinds := Binding.append_finds (Binding.append_ok hbinds.distinct hnew)
  refine ⟨?_, fun hkept =>
    ⟨fun m hm => hfinds.2 m (hplan.brings_members hd hrules hb hrule haction m hm), ?_⟩⟩
  · obtain ⟨f, hf, hfound⟩ := hbinds.filled rule hrule
    rw [HoleRule.fill, haction] at hf
    obtain rfl := Except.ok.inj hf
    exact hfound
  · intro hkind hnone
    obtain ⟨q, hq, hname, _, happly⟩ := hdeclared hkind
    have hstays : q.name ∉ b.removed := by
      intro hremoved
      have htaken := hplan.takenBack_of_removed hbinds hremoved ⟨q, hq, rfl⟩
      rw [hname] at htaken
      exact hkept hkind htaken hnone
    obtain ⟨value, hvalue, hfound⟩ := Binding.declared_read hplan.distinct hread hq hstays
    obtain rfl := Except.ok.inj (happly.symm.trans hvalue)
    rw [← hname]
    exact hfinds.1 _ _ hfound

/-- Where no path is marked twice, a parameter is taken back by no other comparison. -/
theorem Plan.Sound.removed_of_takenBack {plan : Plan} (hplan : plan.Sound)
    (hmarks : ((marks plan.rules).map Prod.snd).Nodup) {rule : HoleRule} (hrule : rule ∈ plan.rules)
    {p : Predicate} (haction : rule.action = .predicate p) (hkind : p.kind ≠ .inList)
    (htaken : Filled s args plan.rules fun other f =>
      other.action.param? = some p.param ∧ p.param ∈ f.removed) :
    (p.fill (args.entry rule.path)).removed ≠ [] := by
  obtain ⟨other, hother, f, hf, hparam, hremoved⟩ := htaken
  have hown : rule.action.param? = some p.param := by rw [haction, Action.param?, if_neg hkind]
  have hmarked : ∀ r : HoleRule, r.action.param? = some p.param → r.action.isMarked = true := by
    intro r hr
    rw [Action.isMarked, hr]
    rfl
  obtain ⟨q, hq, hname, hpath, _⟩ := hplan.declared rule hrule _ hown
  obtain ⟨q', hq', hname', hpath', _⟩ := hplan.declared other hother _ hparam
  have hsame := hplan.eq_of_name hq hq' (hname.trans hname'.symm)
  have hpaths : rule.path = other.path := by rw [← hpath, ← hpath', hsame]
  obtain rfl := Plan.eq_of_marks_nodup hmarks hrule hother (hmarked _ hown) (hmarked _ hparam) hpaths
  rw [HoleRule.fill, haction] at hf
  obtain rfl := Except.ok.inj hf
  exact List.ne_nil_of_mem hremoved

end Planned

namespace Compiler

variable {c : Compiler} {spec : QuerySpec} {compiled : Compiled}

/-- The names of a compiled plan are reserved for its rules. -/
theorem exists_reserved (hcompile : c.compile spec = .ok compiled) :
    ∃ d : Draft, d.Reserved ∧ compiled.plan.rules = d.rules ∧ compiled.plan.params = d.params := by
  obtain ⟨_, hplan⟩ := ofSpec_of_compile hcompile
  obtain ⟨p, d, _, hrun, hrules, hparams⟩ := Plan.ofSpec_planner hplan
  exact ⟨d, Draft.reserved_default.steps (Plan.statements_walks p _ _ _ hrun), hrules, hparams⟩

/-- A comparison that is not left out is bound to a condition that is true for a cell exactly where the
directive says so, whether the cell or the value is null or not, if the parameters that it reads are bound.
They are, unless another comparison of the same parameter takes it back; where the fields of the arguments
have paths of their own, none does. -/
theorem bind_compares (hcompile : c.compile spec = .ok compiled) {rule : HoleRule}
    (hrule : rule ∈ compiled.plan.rules) {p : Predicate} (haction : rule.action = .predicate p)
    {args value : Value} (hvalue : args.entry rule.path = value)
    (hkept : isIgnored p.ignore value = false) :
    ∃ e own, (p.fill value).fragment = .expr e ∧ p.Compares rule.path value own ∧
      (∀ (w : World) (env : Env) (f : HoleFiller), w.dialect.Discerns →
        (p.kind ≠ .inList → w.dialect.Complements ((p.column.filled f).value w env) value) →
        p.SuppliedBy w.params value own →
          ((e.filled f).holds w env = true ↔
            p.Asks w value own ((p.column.filled f).value w env))) ∧
      ∀ bound, compiled.bind args = .ok bound →
        ∃ subs, compiled.plan.substitution compiled.schema args = .ok (subs, bound.params) ∧
          subs.find? rule.hole = some (.expr e) ∧
          (p.SuppliedBy bound.params value own ↔ ¬(p.kind ≠ .inList ∧ (p.fill value).removed = [] ∧
            compiled.TakesBack args p.param)) ∧
          ((spec.arguments.preorder.map Field.path).Nodup → p.SuppliedBy bound.params value own) := by
  subst hvalue
  obtain ⟨_, hplan⟩ := ofSpec_of_compile hcompile
  have hsound := Plan.ofSpec_sound hplan
  obtain ⟨d, hd, hrules, hparams⟩ := exists_reserved hcompile
  obtain ⟨e, he⟩ := p.exists_fill (args.entry rule.path)
  obtain ⟨own, hcompares, hdeclared⟩ : ∃ own, p.Compares rule.path (args.entry rule.path) own ∧
      (p.kind ≠ .inList → ∃ q ∈ compiled.plan.params, q.name = p.param ∧ q.path = rule.path ∧
        q.transform.apply q.path (args.entry q.path) = .ok own) := by
    by_cases hkind : p.kind = .inList
    · exact ⟨_, ⟨.asIs, hkind ▸ rfl, rfl⟩, fun hother => absurd hkind hother⟩
    · obtain ⟨q, hq, hname, hpath, hreads⟩ := hd.compared rule (hrules ▸ hrule) p haction hkind
      obtain ⟨own, happly⟩ := hreads.apply_ok q.path (args.entry q.path)
      exact ⟨own, ⟨q.transform, hreads, hpath ▸ happly⟩, fun _ => ⟨q, hparams ▸ hq, hname, hpath, happly⟩⟩
  refine ⟨e, own, he, hcompares, fun w env f hdiscerns hcomplements hsupplied =>
    Predicate.holds_fill hkept hcompares hsupplied he hdiscerns hcomplements, fun bound hbind => ?_⟩
  obtain ⟨b, hb, hsubs, hnames⟩ := hsound.bound_of_bind hbind
  obtain ⟨hfound, hsupplied⟩ := hsound.supplied hd hrules hsubs hrule haction hdeclared
  have hexact : p.SuppliedBy bound.params (args.entry rule.path) own ↔ ¬(p.kind ≠ .inList ∧
      (p.fill (args.entry rule.path)).removed = [] ∧ compiled.TakesBack args p.param) := by
    constructor
    · rintro hbound ⟨hkind, hreads, htaken⟩
      have hthere : p.param ∈ bound.params.names := by
        rw [← Record.getExact?_isSome_iff, hbound.2 hkind hreads]
        rfl
      exact hsound.not_bound_of_takenBack hb htaken ((hnames p.param).mp hthere)
    · intro hfree
      exact hsupplied fun hkind htaken hreads => hfree ⟨hkind, hreads, htaken⟩
  refine ⟨b.subs, hsubs, he ▸ hfound, hexact, fun hdistinct => hexact.mpr ?_⟩
  rintro ⟨hkind, hreads, htaken⟩
  have hmarks := Plan.ofSpec_marks_nodup hplan hdistinct
  exact hsound.removed_of_takenBack hmarks hrule haction hkind htaken hreads

/-- The tags of orders, but for some. -/
def otherTags : SpecDeclaration where
  operation := .select
  table := some "OrderTag"
  arguments := [⟨"TagId", .list .i32, true, { (default : Directives) with negate := true }⟩]
  returns := [.many "OrderTag"]

/-- A tag, and none. -/
def otherTagsArguments : Value := .record [("TagId", .list [.i32 7, .null])]

/-- The comparison is a negated list, and the fields have paths of their own. -/
def otherTagsTest (_ : Compiler) (spec : QuerySpec) (compiled : Compiled) : Bool :=
  decide (spec.arguments.preorder.map Field.path).Nodup &&
  (compiled.bind otherTagsArguments).toOption.isSome &&
  compiled.plan.rules.any fun rule => match rule.action with
    | .predicate p => p.kind == .inList && p.negate && p.ignore.isNone &&
      decide (otherTagsArguments.entry rule.path = .list [.i32 7, .null])
    | _ => false

/-- The tags that are found are those that are there and differ from the one listed. -/
theorem bind_compares_otherTags :
    ∃ schema spec compiled rule p bound subs e, Schema.build orderDeclarations = .ok schema ∧
      otherTags.build orderTagShapes = .ok spec ∧
      (⟨schema, default, .exact⟩ : Compiler).compile spec = .ok compiled ∧
      rule ∈ compiled.plan.rules ∧ rule.action = .predicate p ∧
      compiled.bind otherTagsArguments = .ok bound ∧
      compiled.plan.substitution compiled.schema otherTagsArguments = .ok (subs, bound.params) ∧
      subs.find? rule.hole = some (.expr e) ∧
      ∀ (w : World) (env : Env) (f : HoleFiller), w.dialect = .literal → w.params = bound.params →
        ((e.filled f).holds w env = true ↔
          ((p.column.filled f).value w env).isNull = false ∧
            ¬ w.Equal ((p.column.filled f).value w env) (.i32 7)) := by
  obtain ⟨schema, spec, compiled, hschema, hspec, hcompile, htest⟩ :
      ∃ schema spec compiled, Schema.build orderDeclarations = .ok schema ∧
        otherTags.build orderTagShapes = .ok spec ∧
        (⟨schema, default, .exact⟩ : Compiler).compile spec = .ok compiled ∧
        otherTagsTest ⟨schema, default, .exact⟩ spec compiled = true :=
    exists_compiled (by decide +kernel)
  simp only [otherTagsTest, Bool.and_eq_true, decide_eq_true_eq, List.any_eq_true] at htest
  obtain ⟨⟨hdistinct, hbinds⟩, rule, hrule, hpredicate⟩ := htest
  obtain ⟨bound, hbound⟩ := Option.isSome_iff_exists.mp hbinds
  have hbind := ok_of_toOption hbound
  split at hpredicate
  · rename_i p haction
    simp only [Bool.and_eq_true, beq_iff_eq, Option.isNone_iff_eq_none, decide_eq_true_eq] at hpredicate
    obtain ⟨⟨⟨hkind, hnegate⟩, hignore⟩, hvalue⟩ := hpredicate
    have hkept : isIgnored p.ignore (.list [.i32 7, .null]) = false := by
      rw [hignore]
      rfl
    obtain ⟨e, own, _, _, hmeans, hbound⟩ := bind_compares hcompile hrule haction hvalue hkept
    obtain ⟨subs, hsubs, hfound, _, hsupplied⟩ := hbound bound hbind
    refine ⟨schema, spec, compiled, rule, p, bound, subs, e, hschema, hspec, hcompile, hrule, haction, hbind,
      hsubs, hfound, fun w env f hdialect hparams => ?_⟩
    have hnumbers : Dialect.literal.compare .eq (.i64 1) (.i64 0) = false := by decide
    have hdiscerns : w.dialect.Discerns := hdialect ▸ hnumbers
    rw [hmeans w env f hdiscerns (fun hother => absurd hkind hother) (hparams ▸ hsupplied hdistinct)]
    have hnull : ∀ cell, ¬ w.Equal cell .null := fun _ => Predicate.not_equal_of_isNull rfl
    simp [Predicate.Asks, hkind, hnegate, Value.items, hnull]
  · cases hpredicate

/-- The comparison with the last name is kept, and asks for the rows where it is empty, but the parameter
that it reads has been taken back: the condition holds for no such row. -/
theorem unsupplied_emptyTerm :
    ∃ (compiled : Compiled) (rule : HoleRule) (p : Predicate) (bound : Bound) (subs : Substitution)
      (e : Expr), Schema.build [namedDeclaration] = .ok namedSchema ∧
      termDeclaration.build
        (.ofList [⟨"Search", some "Person", termFields⟩, ⟨"Person", none, [idField]⟩]) =
          .ok termSearch ∧
      (⟨namedSchema, default, .exact⟩ : Compiler).compile termSearch = .ok compiled ∧
      rule ∈ compiled.plan.rules ∧ rule.action = .predicate p ∧ p.kind = .eq ∧ p.negate = false ∧
      emptyTerm.entry rule.path = .text "" ∧ isIgnored p.ignore (.text "") = false ∧
      compiled.bind emptyTerm = .ok bound ∧
      compiled.plan.substitution compiled.schema emptyTerm = .ok (subs, bound.params) ∧
      subs.find? rule.hole = some (.expr e) ∧
      ∀ (w : World) (env : Env) (f : HoleFiller), w.params = bound.params →
        (p.column.filled f).value w env = .text "" →
          w.Matches (.text "") (.text "") ∧ (e.filled f).holds w env = false := by
  have hschema : Schema.build [namedDeclaration] = .ok namedSchema := rfl
  have hspec : termDeclaration.build
      (.ofList [⟨"Search", some "Person", termFields⟩, ⟨"Person", none, [idField]⟩]) =
        .ok termSearch := rfl
  refine ⟨_, _, _, _, _, _, hschema, hspec, rfl, List.mem_cons_of_mem _ List.mem_cons_self, rfl, rfl, rfl,
    rfl, rfl, rfl, rfl, rfl, fun w env f hparams hcell => ⟨?_, ?_⟩⟩
  · exact Or.inr ⟨rfl, rfl, w.dialect.equal.refl _⟩
  · have hnone : w.params.getExact? "filter_Term" = none := by
      rw [hparams]
      rfl
    have hnull : ((Expr.param "filter_Term").filled f).value w env = .null := by
      rw [Expr.filled, Expr.value, hnone, Option.getD_none]
    show ((Expr.compare (.columnOf "Person" "Last") .eq (.param "filter_Term")).filled f).holds w env =
      false
    rw [Expr.filled, Expr.holds, Expr.truth, hnull, World.compare, Value.isNull, Bool.or_true]
    rfl

end Compiler

end ShapeSql
