import ShapeSql.Proofs.Bind.Mentions
import ShapeSql.Proofs.Plan.Unpaged
import ShapeSql.Proofs.Sql.Substituted

namespace ShapeSql

open Sql

namespace Sql.Substitution

variable {base : Substitution} {id : HoleId} {fragment : Fragment}

theorem find?_append (h : base.find? id = some fragment) (later : List (HoleId × Fragment)) :
    Substitution.find? ⟨base.fragments ++ later⟩ id = some fragment := by
  obtain ⟨entry, hentry, rfl⟩ := Option.map_eq_some_iff.mp h
  rw [find?, List.find?_append, hentry]
  rfl

/-- The holes of a fragment have smaller numbers than the hole that it is put into, and are bound. -/
theorem Layered.below_hole (hbase : base.Layered) (hfound : base.find? id = some fragment) :
    ∀ below ∈ fragment.collect .holes (), below.2.index < id.index ∧
      ∃ other, base.find? below.2 = some other ∧ other.place = below.1 := by
  intro below hbelow
  have hsound : ∀ fault, .broken fault ∉ fragment.leaves :=
    fun fault hfault => hbase.below id fragment hfound _ hfault
  exact hbase.below id fragment hfound _ (fragment.openIn hsound below hbelow)

end Sql.Substitution

namespace Sql.HoleFiller

variable {base : Substitution} {id : HoleId} {fragment : Fragment}

/-- Whatever is bound later, as many layers as the number of a hole says put the same into it. -/
theorem nested_append (hbase : base.Layered) (later : List (HoleId × Fragment)) {n m : Nat}
    (hfound : base.find? id = some fragment) (hn : id.index ≤ n) (hm : id.index ≤ m) :
    (nested base n).Agrees (nested ⟨base.fragments ++ later⟩ m) (fragment.place, id) := by
  have hsame : ∀ {id : HoleId} {fragment : Fragment}, base.find? id = some fragment →
      base.find? id = Substitution.find? ⟨base.fragments ++ later⟩ id :=
    fun hfound => hfound.trans (Substitution.find?_append hfound later).symm
  induction n generalizing m id fragment with
  | zero =>
    have hnone : ∀ other, base.find? id = some other → ∀ below ∈ other.collect .holes (), False := by
      intro other hother below hbelow
      have := (hbase.below_hole hother below hbelow).1
      omega
    cases m with
    | zero => exact filling_agrees (hsame hfound) fun other hother below hbelow =>
        (hnone other hother below hbelow).elim
    | succ m => exact filling_agrees (hsame hfound) fun other hother below hbelow =>
        (hnone other hother below hbelow).elim
  | succ n ih =>
    cases m with
    | zero =>
      refine filling_agrees (hsame hfound) ?_
      intro other hother below hbelow
      have hlt : below.2.index < id.index := (hbase.below_hole hother below hbelow).1
      omega
    | succ m =>
      refine filling_agrees (hsame hfound) ?_
      intro other hother below hbelow
      obtain ⟨hbelow, inner, hinner, hplace⟩ := hbase.below_hole hother below hbelow
      have hlt : below.2.index < id.index := hbelow
      have hagrees := ih (m := m) hinner (by omega) (by omega)
      rw [hplace] at hagrees
      exact hagrees

end Sql.HoleFiller

namespace Binding

variable {s : Schema} {args : Value} {rules : List HoleRule} {b : Binding}

/-- An expression whose holes are filled by the rules is filled in the same way whatever is bound later. -/
theorem Binds.filled_append (hb : b.Binds s args rules) (hfits : ∀ rule ∈ rules, rule.action.Fits)
    (later : List (HoleId × Fragment)) {e : Expr} (he : ∀ l ∈ e.collect .leaves (), l.FilledBy rules) :
    e.filled (.ofSubstitution ⟨b.subs.fragments ++ later⟩) = e.filled (.ofSubstitution b.subs) := by
  symm
  apply e.filled_congr
  intro opening hopening
  have hsound : ∀ fault, .broken fault ∉ e.collect .leaves () := fun fault hfault => he _ hfault
  obtain ⟨rule, hrule, hhole, hplace⟩ := he _ (e.openIn hsound opening hopening)
  obtain ⟨f, hf, hfound⟩ := hb.filled rule hrule
  have hindex := hb.layered.size _ _ hfound
  have hlonger : b.subs.size ≤ (⟨b.subs.fragments ++ later⟩ : Substitution).size := by
    show b.subs.fragments.length ≤ (b.subs.fragments ++ later).length
    rw [List.length_append]
    omega
  have hagrees := HoleFiller.nested_append hb.layered later hfound hindex
    (Nat.le_trans hindex hlonger)
  rw [(HoleRule.fill_serves (hfits rule hrule) hf).place, hplace, hhole] at hagrees
  exact hagrees

theorem binds_of_ofRules (hrules : Layered rules) (hfits : ∀ rule ∈ rules, rule.action.Fits)
    (h : ofRules s rules args = .ok b) : b.Binds s args rules := by
  rcases ofRules_binds s args hrules hfits with ⟨e, he⟩ | ⟨found, hfound, hbinds⟩
  · rw [he] at h
    cases h
  · rw [hfound] at h
    cases h
    exact hbinds

/-- An ordering brings no parameters and takes none back. -/
theorem fill_ordering {rule : HoleRule} (hplace : rule.action.place = .order) {value : Value}
    {f : Filling} (hfill : rule.fill s value = .ok f) : f.added = [] ∧ f.removed = [] := by
  obtain ⟨hole, path, action⟩ := rule
  cases action with
  | order expr =>
    obtain ⟨direction, _, hpure⟩ := except_bind_ok.mp hfill
    cases hpure
    exact ⟨rfl, rfl⟩
  | dynamicOrder first others =>
    obtain ⟨terms, _, hpure⟩ := except_bind_ok.mp hfill
    cases hpure
    exact ⟨rfl, rfl⟩
  | predicate _ | guard _ _ | assign _ _ _ | rows _ | keyMatch _ _ => cases hplace

/-- Orderings bind further holes, and leave the parameters as they are. -/
theorem foldlM_orderings {more : List HoleRule} (hmore : ∀ rule ∈ more, rule.action.place = .order)
    {b b' : Binding} (h : more.foldlM (step s args) b = .ok b') :
    (∃ later, b'.subs = ⟨b.subs.fragments ++ later⟩) ∧ b'.added = b.added ∧ b'.removed = b.removed := by
  induction more generalizing b with
  | nil =>
    cases h
    exact ⟨⟨[], by rw [List.append_nil]⟩, rfl, rfl⟩
  | cons rule more ih =>
    rw [List.foldlM_cons] at h
    obtain ⟨between, hbetween, h⟩ := except_bind_ok.mp h
    rw [List.forall_mem_cons] at hmore
    obtain ⟨⟨later, hlater⟩, hadded, hremoved⟩ := ih hmore.2 h
    obtain ⟨f, hf, hstep⟩ := except_bind_ok.mp hbetween
    obtain ⟨subs, hsubs, hpure⟩ := except_bind_ok.mp hstep
    cases hpure
    obtain ⟨hnone, hkept⟩ := fill_ordering hmore.1 (mapError_ok.mp hf)
    have hinsert : subs = ⟨b.subs.fragments ++ [(rule.hole, f.fragment)]⟩ := by
      unfold Substitution.insert at hsubs
      split at hsubs
      · cases hsubs
      · cases hsubs
        rfl
    refine ⟨⟨(rule.hole, f.fragment) :: later, ?_⟩, ?_, ?_⟩
    · rw [hlater, hinsert, List.append_assoc]
      rfl
    · rw [hadded, hnone]
      rfl
    · rw [hremoved, hkept]
      rfl

/-- A loop over parameters reads the values of their arguments, and leaves other names as they are. -/
theorem getExact?_declared {ps : List Param} {start bound : Params}
    (h : ps.foldlM (fun bound p => do
      let value ← p.transform.apply p.path (args.entry p.path)
      return Record.insert bound p.name value : Params → Param → Except Error Params) start =
        .ok bound) :
    (∀ name, (∀ p ∈ ps, p.name ≠ name) → bound.getExact? name = start.getExact? name) ∧
      ((ps.map Param.name).Nodup → ∀ p ∈ ps, ∃ value,
        p.transform.apply p.path (args.entry p.path) = .ok value ∧
          bound.getExact? p.name = some value) := by
  induction ps generalizing start with
  | nil =>
    cases h
    exact ⟨fun _ _ => rfl, fun _ => List.forall_mem_nil _⟩
  | cons p ps ih =>
    rw [List.foldlM_cons] at h
    obtain ⟨next, hnext, h⟩ := except_bind_ok.mp h
    obtain ⟨value, hvalue, hpure⟩ := except_bind_ok.mp hnext
    cases hpure
    obtain ⟨hother, hread⟩ := ih h
    constructor
    · intro name hname
      rw [List.forall_mem_cons] at hname
      rw [hother name hname.2, Record.getExact?_insert_of_ne start hname.1]
    · intro hnodup
      rw [List.map_cons, List.nodup_cons] at hnodup
      refine List.forall_mem_cons.mpr ⟨⟨value, hvalue, ?_⟩, hread hnodup.2⟩
      rw [hother p.name, Record.getExact?_insert_self]
      intro q hq hsame
      exact hnodup.1 (List.mem_map.mpr ⟨q, hq, hsame⟩)

end Binding

namespace Plan

variable {s : Schema} {args : Value} {plan : Plan} {rules more : List HoleRule}
  {params pages : List Param}

/-- What a substitution consists of: the fragments that the rules bind, and the parameters that are
declared and left, followed by those that the rules bring. -/
theorem Sound.substitution_inv (hplan : plan.Sound) {subs : Substitution} {bound : Params}
    (hsubs : plan.substitution s args = .ok (subs, bound)) :
    ∃ b declared, Binding.ofRules s plan.rules args = .ok b ∧ b.Binds s args plan.rules ∧
      b.assigned ≠ some false ∧ b.declared plan.params args = .ok declared ∧
      (∀ name ∈ b.added.names, name ∉ declared.names) ∧ subs = b.subs ∧
      bound = declared ++ b.added := by
  unfold substitution at hsubs
  obtain ⟨b, hb, hsubs⟩ := except_bind_ok.mp hsubs
  have hbinds := Binding.binds_of_ofRules hplan.layered hplan.fits hb
  split at hsubs
  · cases hsubs
  · rename_i hassigned
    obtain ⟨declared, hdeclared, hsubs⟩ := except_bind_ok.mp hsubs
    obtain ⟨params, hparams, hpure⟩ := except_bind_ok.mp hsubs
    cases hpure
    have hdeclared := mapError_ok.mp hdeclared
    have hparams := mapError_ok.mp hparams
    have hnew : ∀ name ∈ b.added.names, name ∉ declared.names := by
      intro name hname hmem
      obtain ⟨⟨p, hp, hsame⟩, _⟩ := ((Binding.names_declared hdeclared).2 name).mp hmem
      exact hbinds.added_aside hplan hname p hp hsame
    rw [Binding.append_ok hbinds.distinct hnew] at hparams
    cases hparams
    exact ⟨b, declared, hb, hbinds, hassigned, hdeclared, hnew, rfl, rfl⟩

/-- Nothing takes back a parameter of a form that no rule compares with. -/
theorem Sound.kept_of_required (hplan : plan.Sound) {b : Binding} (hb : b.Binds s args plan.rules)
    {q : Param} (hq : q ∈ plan.params) (hrequired : q.transform = .required) :
    q.name ∉ b.removed := by
  intro hremoved
  obtain ⟨rule, hrule, _, _, hparam, _⟩ := hplan.takenBack_of_removed hb hremoved ⟨q, hq, rfl⟩
  obtain ⟨p, hp, hname, _, htransform⟩ := hplan.declared rule hrule q.name hparam
  rw [hplan.eq_of_name hp hq hname] at htransform
  exact htransform hrequired

/-- Where orderings come last, the rules before them bind as they do without them. -/
theorem Sound.substitution_ordered (hplan : plan.Sound) (hrules : plan.rules = rules ++ more)
    (hmore : ∀ rule ∈ more, rule.action.place = .order) (hlayered : Layered rules)
    {subs : Substitution} {bound : Params} (hsubs : plan.substitution s args = .ok (subs, bound)) :
    ∃ b declared, Binding.ofRules s rules args = .ok b ∧ b.Binds s args rules ∧
      (∃ later, subs = ⟨b.subs.fragments ++ later⟩) ∧ b.declared plan.params args = .ok declared ∧
      bound = declared ++ b.added ∧ (∀ name ∈ b.added.names, name ∉ declared.names) ∧
      ∀ q ∈ plan.params, q.transform = .required → q.name ∉ b.removed := by
  obtain ⟨whole, declared, hwhole, hbinds, _, hdeclared, hnew, rfl, rfl⟩ := hplan.substitution_inv hsubs
  have hfirst : ∃ b, Binding.ofRules s rules args = .ok b ∧ more.foldlM (Binding.step s args) b =
      .ok whole := by
    unfold Binding.ofRules at hwhole
    rw [hrules, List.foldlM_append] at hwhole
    exact except_bind_ok.mp hwhole
  obtain ⟨b, hb, hlater⟩ := hfirst
  obtain ⟨hextends, hadded, hremoved⟩ := Binding.foldlM_orderings hmore hlater
  have hfits : ∀ rule ∈ rules, rule.action.Fits := fun rule hrule =>
    hplan.fits rule (hrules ▸ List.mem_append_left _ hrule)
  refine ⟨b, declared, hb, Binding.binds_of_ofRules hlayered hfits hb, hextends, ?_, by rw [hadded], hadded ▸ hnew, ?_⟩
  · rw [Binding.declared, ← hremoved]
    exact hdeclared
  · intro q hq hrequired
    rw [← hremoved]
    exact hplan.kept_of_required hbinds hq hrequired

end Plan

theorem Transform.apply_required {path : Path} {value other : Value}
    (h : Transform.required.apply path value = .ok other) : other = value := by
  have hif : (if value.isNull then .error (.badArgument (.pagingNull path)) else .ok value :
      Except Error Value) = .ok other := h
  split at hif
  · cases hif
  · exact (Except.ok.inj hif).symm

section Declared

variable {args : Value} {b : Binding} {params more : List Param} {bound : Params}

/-- Declared parameters that are not taken back have the values of their arguments. -/
theorem Binding.declared_read (hnodup : (params.map Param.name).Nodup)
    (h : b.declared params args = .ok bound) {q : Param} (hq : q ∈ params)
    (hkept : q.name ∉ b.removed) : ∃ value, q.transform.apply q.path (args.entry q.path) = .ok value ∧
      bound.getExact? q.name = some value := by
  apply (getExact?_declared h).2
  · exact hnodup.sublist (List.filter_sublist.map _)
  · exact List.mem_filter.mpr ⟨hq, by simpa using hkept⟩

/-- The parameters declared first are bound as they are without the later ones. -/
theorem Binding.declared_append (h : b.declared (params ++ more) args = .ok bound) :
    ∃ first, b.declared params args = .ok first ∧
      ∀ name, (∀ q ∈ more, q.name ≠ name) → bound.getExact? name = first.getExact? name := by
  unfold declared at h
  rw [List.filter_append, List.foldlM_append] at h
  obtain ⟨first, hfirst, h⟩ := except_bind_ok.mp h
  refine ⟨first, hfirst, ?_⟩
  intro name hname
  exact (getExact?_declared h).1 name fun q hq => hname q (List.mem_of_mem_filter hq)

end Declared

/-- A page and the whole output begin with the same rules and parameters. They bind those alike, and the
page has its bounds from the arguments. -/
theorem Plan.substitution_page {s : Schema} {args : Value} {plan whole : Plan}
    {d between paged other : Draft} (hplan : plan.Sound) (hwhole : whole.Sound) (hd : d.Sound)
    (hrules : plan.rules = paged.rules) (hparams : plan.params = paged.params)
    (hwholeRules : whole.rules = other.rules) (hwholeParams : whole.params = other.params)
    (hordered : Planner.OrderedAs d between) (hpaged : Planner.PagedAs between paged)
    (hother : Planner.OrderedAs d other) {subs others : Substitution} {bound all : Params}
    (hsubs : plan.substitution s args = .ok (subs, bound))
    (hothers : whole.substitution s args = .ok (others, all)) :
    ∃ b : Binding, b.Binds s args d.rules ∧ (∃ later, subs = ⟨b.subs.fragments ++ later⟩) ∧
      (∃ later, others = ⟨b.subs.fragments ++ later⟩) ∧
      (∀ name, (name ∈ b.added.names ∨ ∃ q ∈ d.params, q.name = name) →
        bound.getExact? name = all.getExact? name) ∧
      ∀ q ∈ paged.params, q.transform = .required →
        bound.getExact? q.name = some (args.entry q.path) := by
  obtain ⟨rules, hafter, hplaces⟩ := hordered.rules
  obtain ⟨pages, hpages, hrequired⟩ := hpaged.params
  obtain ⟨wholeRules, hwholeAfter, hwholePlaces⟩ := hother.rules
  rw [hordered.params] at hpages
  obtain ⟨b, declared, hb, hbinds, hlater, hdeclared, rfl, hnew, hkept⟩ :=
    hplan.substitution_ordered (hrules.trans (hpaged.rules.trans hafter)) hplaces hd.layered hsubs
  obtain ⟨same, first, hsame, _, hwholeLater, hfirst, rfl, _, _⟩ :=
    hwhole.substitution_ordered (hwholeRules.trans hwholeAfter) hwholePlaces hd.layered hothers
  rw [hb] at hsame
  cases hsame
  rw [hwholeParams, hother.params] at hfirst
  have hbegun := hdeclared
  rw [hparams, hpages] at hbegun
  obtain ⟨begun, hdeclaredFirst, hfirstKept⟩ := Binding.declared_append hbegun
  rw [hfirst] at hdeclaredFirst
  cases hdeclaredFirst
  refine ⟨b, hbinds, hlater, hwholeLater, ?_, ?_⟩
  · intro name hname
    rw [Record.getExact?_append, Record.getExact?_append, hfirstKept name]
    rintro q hq rfl
    have hmem : q ∈ plan.params := by
      rw [hparams, hpages]
      exact List.mem_append_right _ hq
    rcases hname with hadded | ⟨p, hp, hsame⟩
    · refine hnew q.name hadded (((Binding.names_declared hdeclared).2 q.name).mpr ⟨⟨q, hmem, rfl⟩, ?_⟩)
      exact hkept q hmem (hrequired q hq)
    · have hdistinct := hplan.distinct
      rw [hparams, hpages, List.map_append, List.nodup_append] at hdistinct
      exact hdistinct.2.2 p.name (List.mem_map_of_mem hp) q.name (List.mem_map_of_mem hq) hsame
  · intro q hq htransform
    rw [← hparams] at hq
    obtain ⟨value, hvalue, hread⟩ :=
      Binding.declared_read hplan.distinct hdeclared hq (hkept q hq htransform)
    rw [htransform] at hvalue
    rw [Record.getExact?_append, hread, Transform.apply_required hvalue]
    rfl

/-- Writing a batch does not fail once its rules and its parameters are bound. -/
theorem Plan.Sound.bind_ok {s : Schema} {args : Value} {plan : Plan} (hplan : plan.Sound)
    (hkeeps : ∀ st ∈ plan.batch, st.KeepsAssignment plan.rules)
    (hrecord : ¬(!args.isNull && !args.isRecord) = true) {b : Binding}
    (hb : Binding.ofRules s plan.rules args = .ok b) (hassigned : b.assigned ≠ some false)
    {declared : Params} (hdeclared : b.declared plan.params args = .ok declared) :
    ∃ bound, plan.bind s args = .ok bound := by
  have hbinds := Binding.binds_of_ofRules hplan.layered hplan.fits hb
  have hnew : ∀ name ∈ b.added.names, name ∉ declared.names := by
    intro name hname hmem
    obtain ⟨⟨p, hp, hsame⟩, _⟩ := ((Binding.names_declared hdeclared).2 name).mp hmem
    exact hbinds.added_aside hplan hname p hp hsame
  obtain ⟨sql, hsql⟩ := hplan.render_ok hkeeps hbinds hassigned
  have hsubs : plan.substitution s args = .ok (b.subs, declared ++ b.added) := by
    refine except_bind_ok.mpr ⟨b, hb, ?_⟩
    refine (if_neg hassigned).trans (except_bind_ok.mpr ⟨declared, mapError_ok.mpr hdeclared, ?_⟩)
    exact except_bind_ok.mpr ⟨_, mapError_ok.mpr (Binding.append_ok hbinds.distinct hnew), rfl⟩
  refine ⟨⟨sql, declared ++ b.added⟩, (if_neg hrecord).trans ?_⟩
  exact except_bind_ok.mpr ⟨_, hsubs, except_bind_ok.mpr ⟨sql, mapError_ok.mpr hsql, rfl⟩⟩

/-- What is bound with further parameters is bound without them. -/
theorem Plan.bind_of_bind {s : Schema} {args : Value} {plan whole : Plan} (hplan : plan.Sound)
    (hwhole : whole.Sound) (hkeeps : ∀ st ∈ whole.batch, st.KeepsAssignment whole.rules)
    (hrules : plan.rules = whole.rules) {more : List Param} (hparams : plan.params = whole.params ++ more)
    {bound : Bound} (h : plan.bind s args = .ok bound) : ∃ all, whole.bind s args = .ok all := by
  unfold Plan.bind at h
  split at h
  · cases h
  · rename_i hrecord
    obtain ⟨⟨subs, params⟩, hsubs, _⟩ := except_bind_ok.mp h
    obtain ⟨b, declared, hb, _, hassigned, hdeclared, _, _, _⟩ := hplan.substitution_inv hsubs
    rw [hrules] at hb
    rw [hparams] at hdeclared
    obtain ⟨first, hfirst, _⟩ := Binding.declared_append hdeclared
    exact hwhole.bind_ok hkeeps hrecord hb hassigned hfirst

end ShapeSql
