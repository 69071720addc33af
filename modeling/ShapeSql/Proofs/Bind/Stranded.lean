import ShapeSql.Proofs.Bind.Wanted
import ShapeSql.Proofs.Plan.Filter

/-!
Filters that strand a parameter. A guard that is dropped takes its condition along, but the rules below it
are filled like any others, each by its own value and its own notion of absence. Where one of them wants a
parameter, the statement does not mention it. Any other rule of a filter is reached from the condition that
the filter comes to, and so are the parameters that it wants.
-/

namespace ShapeSql

open Sql Planning

/-- Whether the comparison of a field reads a parameter for the value. -/
def Field.reads (field : Field) (ignore : Option Ignore) (value : Value) : Bool :=
  !isIgnored ignore value && field.predicateKind.reads value

namespace FieldTree

mutual

/-- Whether some comparison below the filter reads a parameter. -/
def reads (args : Value) (ignore : Option Ignore) : FieldTree → Bool
  | .node field kids =>
    match field.directives.via with
    | some _ => field.reads none (args.entry field.path)
    | none =>
      if field.isScalar then field.reads ignore (args.entry field.path)
      else !field.cyclic && anyReads args kids

def anyReads (args : Value) : List FieldTree → Bool
  | [] => false
  | t :: ts =>
    (t.label.directives.isFilter && reads args t.label.directives.ignore t) || anyReads args ts

end

mutual

/-- Whether some guard of the filter is dropped over a comparison that reads a parameter. -/
def strands (args : Value) (ignore : Option Ignore) : FieldTree → Bool
  | .node field kids =>
    let dropped := isIgnored ignore (args.entry field.path)
    match field.directives.via with
    | some _ => dropped && field.reads none (args.entry field.path)
    | none =>
      !field.isScalar && !field.cyclic && ((dropped && anyReads args kids) || anyStrands args kids)

def anyStrands (args : Value) : List FieldTree → Bool
  | [] => false
  | t :: ts =>
    (t.label.directives.isFilter && strands args t.label.directives.ignore t) || anyStrands args ts

end

variable {args : Value} {ignore : Option Ignore} {field : Field} {kids : List FieldTree}

theorem reads_record (hvia : field.directives.via = none) (hscalar : ¬field.isScalar = true)
    (hcyclic : ¬field.cyclic = true) : reads args ignore (.node field kids) = anyReads args kids := by
  rw [reads, hvia]
  simp [hscalar, hcyclic]

theorem strands_record (hvia : field.directives.via = none) (hscalar : ¬field.isScalar = true)
    (hcyclic : ¬field.cyclic = true) : strands args ignore (.node field kids) =
      (isIgnored ignore (args.entry field.path) && anyReads args kids || anyStrands args kids) := by
  rw [strands, hvia]
  simp [hscalar, hcyclic]

end FieldTree

/-- The parameter occurs below one of the leaves once the holes are filled. -/
def Sql.Reaches (subs : Substitution) (leaves : List Leaf) (name : String) : Prop :=
  ∃ l ∈ leaves, l.Mentions subs name

theorem Sql.Reaches.mono {subs : Substitution} {leaves others : List Leaf} {name : String}
    (h : Reaches subs leaves name) (hsub : ∀ l ∈ leaves, l ∈ others) : Reaches subs others name := by
  obtain ⟨l, hl, hmentions⟩ := h
  exact ⟨l, hsub l hl, hmentions⟩

namespace HoleRule

/-- The rule, filled at these arguments, wants the parameter. -/
def Wants (s : Schema) (args : Value) (rule : HoleRule) (name : String) : Prop :=
  ∃ f, rule.fill s (args.entry rule.path) = .ok f ∧ f.Wants rule.action name

/-- The hole of the rule is bound to its fragment. -/
def Served (s : Schema) (args : Value) (subs : Substitution) (rule : HoleRule) : Prop :=
  ∃ f, rule.fill s (args.entry rule.path) = .ok f ∧ subs.find? rule.hole = some f.fragment

variable {s : Schema} {args : Value} {subs : Substitution} {rule : HoleRule} {name : String}

/-- Wherever its hole stands, the parameters that a rule wants occur. -/
theorem Served.mentions (h : rule.Served s args subs) (hwants : rule.Wants s args name)
    (place : Place) : (Leaf.hole place rule.hole).Mentions subs name := by
  obtain ⟨f, hf, hfound⟩ := h
  obtain ⟨g, hg, hname⟩ := hwants
  rw [hf] at hg
  cases hg
  exact .hole hfound (HoleRule.leaf_of_wants hf hname) .param

end HoleRule

namespace Draft

variable {s : Schema} {args : Value} {d d' d'' : Draft} {names others : String → Prop}

/-- From one draft to a later one: what the rules that are new want has one of the names, and so has every
new parameter that no rule declares. -/
structure Adds (s : Schema) (args : Value) (d : Draft) (names : String → Prop) (d' : Draft) : Prop where
  grows : ∀ rule ∈ d.rules, rule ∈ d'.rules
  rules : ∀ rule ∈ d'.rules, rule ∈ d.rules ∨ ∀ name, rule.Wants s args name → names name
  params : ∀ q ∈ d'.params,
    q ∈ d.params ∨ (∃ rule ∈ d'.rules, rule.action.param? = some q.name) ∨ names q.name

/-- The rules and parameters are the same. -/
def Keeps (d d' : Draft) : Prop := d'.rules = d.rules ∧ d'.params = d.params

theorem Keeps.refl (d : Draft) : d.Keeps d := ⟨rfl, rfl⟩

theorem Keeps.trans (h : d.Keeps d') (h' : d'.Keeps d'') : d.Keeps d'' :=
  ⟨h'.1.trans h.1, h'.2.trans h.2⟩

theorem Keeps.adds (h : d.Keeps d') : d.Adds s args names d' where
  grows _ hrule := h.1 ▸ hrule
  rules _ hrule := Or.inl (h.1 ▸ hrule)
  params _ hq := Or.inl (h.2 ▸ hq)

namespace Adds

theorem mono (h : d.Adds s args names d') (hsub : ∀ name, names name → others name) :
    d.Adds s args others d' where
  grows := h.grows
  rules rule hrule := (h.rules rule hrule).imp_right fun hnew name hname => hsub name (hnew name hname)
  params q hq := (h.params q hq).imp_right fun hnew => hnew.imp_right (hsub q.name)

theorem trans (h : d.Adds s args names d') (h' : d'.Adds s args names d'') :
    d.Adds s args names d'' where
  grows rule hrule := h'.grows rule (h.grows rule hrule)
  rules := by
    intro rule hrule
    rcases h'.rules rule hrule with hold | hnew
    · exact h.rules rule hold
    · exact Or.inr hnew
  params := by
    intro q hq
    rcases h'.params q hq with hold | hnew
    · rcases h.params q hold with hfirst | ⟨rule, hrule, hparam⟩ | hname
      · exact Or.inl hfirst
      · exact Or.inr (Or.inl ⟨rule, h'.grows rule hrule, hparam⟩)
      · exact Or.inr (Or.inr hname)
    · exact Or.inr hnew

theorem served {subs : Substitution} (h : d.Adds s args names d')
    (hserved : ∀ rule ∈ d'.rules, rule.Served s args subs) :
    ∀ rule ∈ d.rules, rule.Served s args subs := fun rule hrule => hserved rule (h.grows rule hrule)

end Adds

end Draft

namespace Planning

variable {s : Schema} {args : Value} {subs : Substitution} {d d' between : Draft}

/-- A rule is recorded, perhaps with the parameter it declares: what it wants occurs below its hole. -/
theorem rule_adds {path : Path} {action : Action} {hole : HoleId}
    (hrules : between.rules = d.rules)
    (hparams : ∀ q ∈ between.params, q ∈ d.params ∨ action.param? = some q.name)
    (hrun : (rule path action).run between = .ok (hole, d'))
    (hserved : ∀ rule ∈ d'.rules, rule.Served s args subs) :
    d.Adds s args (fun name => (⟨hole, path, action⟩ : HoleRule).Wants s args name ∧
      ∀ place, (Leaf.hole place hole).Mentions subs name) d' := by
  cases hrun
  let last : HoleRule := ⟨⟨between.nextHole⟩, path, action⟩
  have hlast : last ∈ between.rules ++ [last] := List.mem_append_right _ (List.mem_singleton.mpr rfl)
  refine ⟨?_, ?_, ?_⟩
  · intro rule hrule
    exact List.mem_append_left _ (hrules ▸ hrule)
  · intro rule hrule
    rcases List.mem_append.mp hrule with hold | hnew
    · exact Or.inl (hrules ▸ hold)
    · right
      intro name hwants
      rw [List.mem_singleton.mp hnew] at hwants
      exact ⟨hwants, fun place => (hserved last hlast).mentions hwants place⟩
  · intro q hq
    rcases hparams q hq with hold | hparam
    · exact Or.inl hold
    · exact Or.inr (Or.inl ⟨last, hlast, hparam⟩)

/-- No rule is recorded with a parameter, and at most the parameter itself is new. -/
theorem param_news {path : Path} {transform : Transform} {name : String}
    (hrun : (param path transform).run d = .ok (name, d')) :
    ∀ q ∈ d'.params, q ∈ d.params ∨ q.name = name := by
  intro q hq
  rcases param_cases hrun with ⟨rfl, _⟩ | ⟨rfl, rfl⟩
  · exact Or.inl hq
  · rcases List.mem_append.mp hq with hold | hnew
    · exact Or.inl hold
    · rw [List.mem_singleton.mp hnew]
      exact Or.inr rfl

theorem baseName_keeps {base name : String} (hrun : (baseName base).run d = .ok (name, d')) :
    d.Keeps d' := by
  cases hrun
  exact ⟨rfl, rfl⟩

theorem freshAlias_keeps {stem name : String} (hrun : (freshAlias stem).run d = .ok (name, d')) :
    d.Keeps d' := by
  cases hrun
  exact ⟨rfl, rfl⟩

/-- A loop whose steps keep rules and parameters keeps them. -/
theorem foldlM_keeps {α β : Type} {f : β → α → Planning β}
    (hstep : ∀ b a (d d' : Draft) b', (f b a).run d = .ok (b', d') → d.Keeps d')
    {items : List α} {b b' : β} (hrun : (items.foldlM f b).run d = .ok (b', d')) : d.Keeps d' := by
  induction items generalizing d b with
  | nil =>
    rw [List.foldlM_nil, run_pure_ok] at hrun
    rw [hrun.2]
    exact .refl d'
  | cons a items ih =>
    rw [List.foldlM_cons, run_bind_ok] at hrun
    obtain ⟨next, between, hnext, hrest⟩ := hrun
    exact (hstep b a d between next hnext).trans (ih hrest)

end Planning

namespace Planner

variable {s : Schema} {args : Value} {subs : Substitution} {d d' : Draft}

/-- A comparison that reads a parameter has it below its hole. -/
theorem predicate_adds {column e : Expr} {field : Field} {ignore : Option Ignore}
    (hrun : (predicate column field ignore).run d = .ok (e, d'))
    (hserved : ∀ rule ∈ d'.rules, rule.Served s args subs) :
    d.Adds s args (fun name => field.reads ignore (args.entry field.path) = true ∧
      Reaches subs (e.collect .leaves ()) name) d' := by
  simp only [predicate, run_bind_ok, run_pure_ok] at hrun
  obtain ⟨name, between, hname, hole, after, hhole, rfl, rfl⟩ := hrun
  let p : Predicate := ⟨column, field.predicateKind, field.directives.negate, ignore, name⟩
  have hdeclared : between.rules = d.rules ∧
      ∀ q ∈ between.params, q ∈ d.params ∨ (Action.predicate p).param? = some q.name := by
    rcases predicateParam_eq field with ⟨_, heq⟩ | ⟨hkind, transform, _, heq⟩
    · have hkeeps := baseName_keeps (heq ▸ hname)
      exact ⟨hkeeps.1, fun q hq => Or.inl (hkeeps.2 ▸ hq)⟩
    · have hparam : (Action.predicate p).param? = some name := if_neg hkind
      have hrun : (param field.path transform).run d = .ok (name, between) := heq ▸ hname
      refine ⟨rules_of_param hrun, fun q hq => ?_⟩
      exact (param_news hrun q hq).imp_right fun hsame => hparam.trans (congrArg some hsame.symm)
  refine (rule_adds hdeclared.1 hdeclared.2 hhole hserved).mono ?_
  rintro other ⟨⟨f, hf, hwants⟩, hmentions⟩
  cases hf
  obtain ⟨hkept, hreads, _⟩ := p.fill_wants hwants
  refine ⟨?_, _, ?_, hmentions .expr⟩
  · rw [Field.reads, hkept, hreads]
    rfl
  · rw [Expr.collect]
    exact List.mem_singleton.mpr rfl

/-- A guard wants nothing itself, and lets through what its condition reaches unless it is dropped. -/
theorem guarded_adds {path : Path} {ignore : Option Ignore} {expr e : Expr}
    (hrun : (guarded path ignore expr).run d = .ok (e, d'))
    (hserved : ∀ rule ∈ d'.rules, rule.Served s args subs) :
    (∀ names, d.Adds s args names d') ∧ (isIgnored ignore (args.entry path) = false →
      ∀ name, Reaches subs (expr.collect .leaves ()) name →
        Reaches subs (e.collect .leaves ()) name) := by
  cases ignore with
  | none =>
    simp only [guarded, run_pure_ok] at hrun
    obtain ⟨rfl, rfl⟩ := hrun
    exact ⟨fun names => (Draft.Keeps.refl d).adds, fun _ _ h => h⟩
  | some ignore =>
    simp only [guarded, run_bind_ok, run_pure_ok] at hrun
    obtain ⟨hole, after, hhole, rfl, rfl⟩ := hrun
    constructor
    · intro names
      refine (rule_adds rfl (fun q hq => Or.inl hq) hhole hserved).mono ?_
      rintro name ⟨⟨f, hf, hwants⟩, _⟩
      cases hf
      exact (Filling.not_wants rfl rfl name hwants).elim
    · rintro hkept name ⟨l, hl, hmentions⟩
      have hrule : (⟨hole, path, .guard ignore expr⟩ : HoleRule) ∈ after.rules := by
        cases hhole
        exact List.mem_append_right _ (List.mem_singleton.mpr rfl)
      obtain ⟨f, hf, hfound⟩ := hserved _ hrule
      have hfilled : f = .expr expr := by
        cases hf
        exact congrArg Filling.expr (if_neg (Bool.eq_false_iff.mp hkept))
      rw [hfilled] at hfound
      refine ⟨.hole .expr hole, ?_, .hole hfound hl hmentions⟩
      rw [Expr.collect]
      exact List.mem_singleton.mpr rfl

theorem chain_keeps (p : Planner) {outer : String} {legs : List Leg}
    {found : Option (Source × Expr × String × Table)}
    (hrun : (p.chain outer legs).run d = .ok (found, d')) : d.Keeps d' := by
  cases legs with
  | nil =>
    simp only [chain, run_pure_ok] at hrun
    rw [hrun.2]
    exact .refl d'
  | cons first rest =>
    simp only [chain, run_bind_ok, run_pure_ok] at hrun
    obtain ⟨aliasName, start, hstart, walked, last, hwalk, rfl, rfl⟩ := hrun
    refine (freshAlias_keeps hstart).trans (foldlM_keeps ?_ hwalk)
    intro walked leg d d' next hnext
    simp only [run_bind_ok, run_pure_ok] at hnext
    obtain ⟨fresh, after, hfresh, _, rfl⟩ := hnext
    exact freshAlias_keeps hfresh

theorem linked_keeps (p : Planner) {outer : String} {target : Table} {link : Link}
    {found : String × Source × Expr} (hrun : (p.linked outer target link).run d = .ok (found, d')) :
    d.Keeps d' := by
  cases link with
  | parentHolds pairs | childHolds pairs =>
    simp only [linked, run_bind_ok, run_pure_ok] at hrun
    obtain ⟨aliasName, between, hfresh, _, rfl⟩ := hrun
    exact freshAlias_keeps hfresh
  | junction table toParent toChild =>
    simp only [linked, run_bind_ok, run_pure_ok] at hrun
    obtain ⟨aliasName, between, hfresh, junction, after, hjunction, _, rfl⟩ := hrun
    exact (freshAlias_keeps hfresh).trans (freshAlias_keeps hjunction)

/-- The comparison at the end of a way stands in the `EXISTS`. -/
theorem viaExists_adds (p : Planner) {scope : Scope} {v : Via} {field : Field} {e : Expr}
    (hrun : (p.viaExists scope v field).run d = .ok (e, d'))
    (hserved : ∀ rule ∈ d'.rules, rule.Served s args subs) :
    d.Adds s args (fun name => field.reads none (args.entry field.path) = true ∧
      Reaches subs (e.collect .leaves ()) name) d' := by
  simp only [viaExists, run_bind_ok, run_lift_ok] at hrun
  obtain ⟨legs, _, ⟨_, rfl⟩, found, between, hchain, hrest⟩ := hrun
  have hkeeps := p.chain_keeps hchain
  cases found with
  | none =>
    simp only [run_pure_ok] at hrest
    rw [← hrest.2]
    exact hkeeps.adds
  | some chained =>
    obtain ⟨source, tie, lastAlias, last⟩ := chained
    simp only [run_bind_ok, run_lift_ok, run_pure_ok] at hrest
    obtain ⟨column, _, ⟨_, rfl⟩, condition, _, hcondition, rfl, rfl⟩ := hrest
    refine hkeeps.adds.trans ((predicate_adds hcondition hserved).mono ?_)
    rintro name ⟨hreads, hreaches⟩
    refine ⟨hreads, hreaches.mono ?_⟩
    intro l hl
    rw [Expr.collect, Query.mem_collect_restrict]
    exact Or.inr hl

/-- The filters of a related row stand in the `EXISTS`; those left out of it leave nothing open. -/
theorem reaches_relatedExists {source : Source} {tie filters : Expr} {name : String}
    (h : Reaches subs (filters.collect .leaves ()) name) :
    Reaches subs ((relatedExists source tie filters).collect .leaves ()) name := by
  refine h.mono ?_
  intro l hl
  rw [relatedExists, Expr.collect]
  split
  · rename_i htautology
    unfold Expr.isTautology at htautology
    split at htautology
    · rw [Expr.collect, Expr.collect] at hl
      cases hl
    · cases htautology
  · rw [Query.mem_collect_restrict]
    exact Or.inr hl

theorem reaches_allOf {operands : List Expr} {name : String}
    (h : Reaches subs (operands.flatMap (Expr.collect .leaves ())) name) :
    Reaches subs ((Expr.allOf operands).collect .leaves ()) name := by
  rw [Expr.collect_allOf]
  exact h

/-- The way to other tables is behind the guard of its field. -/
theorem guardedExists_adds (p : Planner) {scope : Scope} {v : Via} {field : Field}
    {ignore : Option Ignore} {condition e : Expr} {between : Draft}
    (hcondition : (p.viaExists scope v field).run d = .ok (condition, between))
    (hrun : (guarded field.path ignore condition).run between = .ok (e, d'))
    (hserved : ∀ rule ∈ d'.rules, rule.Served s args subs) :
    d.Adds s args (fun name => field.reads none (args.entry field.path) = true ∧
      ((isIgnored ignore (args.entry field.path) &&
        field.reads none (args.entry field.path)) = false →
          Reaches subs (e.collect .leaves ()) name)) d' := by
  obtain ⟨hguard, hthrough⟩ := guarded_adds hrun hserved
  have hexists := p.viaExists_adds hcondition ((hguard fun _ => True).served hserved)
  refine (hexists.mono ?_).trans (hguard _)
  rintro name ⟨hreads, hreaches⟩
  refine ⟨hreads, fun hclean => ?_⟩
  rw [hreads, Bool.and_true] at hclean
  exact hthrough hclean name hreaches

/-- The conditions of nested filters are behind the guard of the record. -/
theorem guardedFilters_adds {path : Path} {ignore : Option Ignore} {kids : List FieldTree}
    {es : List Expr} {expr e : Expr} {between : Draft}
    (hnested : d.Adds s args (fun name => FieldTree.anyReads args kids = true ∧
      (FieldTree.anyStrands args kids = false →
        Reaches subs (es.flatMap (Expr.collect .leaves ())) name)) between)
    (hexpr : ∀ name, Reaches subs (es.flatMap (Expr.collect .leaves ())) name →
      Reaches subs (expr.collect .leaves ()) name)
    (hrun : (guarded path ignore expr).run between = .ok (e, d'))
    (hserved : ∀ rule ∈ d'.rules, rule.Served s args subs) :
    d.Adds s args (fun name => FieldTree.anyReads args kids = true ∧
      ((isIgnored ignore (args.entry path) && FieldTree.anyReads args kids ||
        FieldTree.anyStrands args kids) = false → Reaches subs (e.collect .leaves ()) name)) d' := by
  obtain ⟨hguard, hthrough⟩ := guarded_adds hrun hserved
  refine (hnested.mono ?_).trans (hguard _)
  rintro name ⟨hreads, hreaches⟩
  refine ⟨hreads, fun hclean => ?_⟩
  rw [hreads, Bool.and_true, Bool.or_eq_false_iff] at hclean
  exact hthrough hclean.1 name (hexpr name (hreaches hclean.2))

mutual

/-- What the rules of a filter want is read by some comparison below it, and is reached from its condition
unless the filter strands it. -/
theorem fieldFilter_adds (p : Planner) : ∀ (t : FieldTree) (scope : Scope) (ignore : Option Ignore)
    {d d' : Draft} {e : Expr}, (p.fieldFilter scope ignore t).run d = .ok (e, d') →
      (∀ rule ∈ d'.rules, rule.Served s args subs) →
        d.Adds s args (fun name => FieldTree.reads args ignore t = true ∧
          (FieldTree.strands args ignore t = false → Reaches subs (e.collect .leaves ()) name)) d'
  | .node field kids, scope, ignore, d, d', e, hrun, hserved => by
    cases Planner.translates_of_fieldFilter hrun with
    | via hvia hcondition hguard =>
      rw [FieldTree.reads, FieldTree.strands, hvia]
      exact p.guardedExists_adds hcondition hguard hserved
    | column hvia hscalar _ hpredicate =>
      refine (predicate_adds hpredicate hserved).mono ?_
      rintro name ⟨hreads, hreaches⟩
      rw [FieldTree.reads, hvia]
      simp only [if_pos hscalar]
      exact ⟨hreads, fun _ => hreaches⟩
    | cyclic => exact (Draft.Keeps.refl d).adds
    | here hvia hshape hacyclic hoperands hguard =>
      rw [FieldTree.reads_record hvia hshape hacyclic, FieldTree.strands_record hvia hshape hacyclic]
      have hnested := nestedFilters_adds p kids scope hoperands
        (((guarded_adds hguard hserved).1 fun _ => True).served hserved)
      exact guardedFilters_adds hnested (fun _ => reaches_allOf) hguard hserved
    | linked hvia hshape hacyclic _ _ hlinked hoperands hguard =>
      rw [FieldTree.reads_record hvia hshape hacyclic, FieldTree.strands_record hvia hshape hacyclic]
      have hnested := nestedFilters_adds p kids _ hoperands
        (((guarded_adds hguard hserved).1 fun _ => True).served hserved)
      refine (p.linked_keeps hlinked).adds.trans
        (guardedFilters_adds hnested (fun name h => ?_) hguard hserved)
      exact reaches_relatedExists (reaches_allOf h)

theorem nestedFilters_adds (p : Planner) : ∀ (ts : List FieldTree) (scope : Scope)
    {d d' : Draft} {es : List Expr}, (p.nestedFilters scope ts).run d = .ok (es, d') →
      (∀ rule ∈ d'.rules, rule.Served s args subs) →
        d.Adds s args (fun name => FieldTree.anyReads args ts = true ∧
          (FieldTree.anyStrands args ts = false →
            Reaches subs (es.flatMap (Expr.collect .leaves ())) name)) d'
  | [], scope, d, d', es, hrun, _ => by
    rw [nestedFilters, run_pure_ok] at hrun
    rw [← hrun.2]
    exact (Draft.Keeps.refl d).adds
  | t :: ts, scope, d, d', es, hrun, hserved => by
    rcases Planner.nestedFilters_cons hrun with
      ⟨hfilter, first, between, rest, hfirst, hrest, rfl⟩ | ⟨hfilter, hrest⟩
    · have htail := nestedFilters_adds p ts scope hrest hserved
      have hhead := fieldFilter_adds p t scope _ hfirst (htail.served hserved)
      rw [FieldTree.anyReads, FieldTree.anyStrands, hfilter, Bool.true_and, Bool.true_and]
      refine (hhead.mono ?_).trans (htail.mono ?_)
      · rintro name ⟨hreads, hreaches⟩
        refine ⟨by rw [hreads, Bool.true_or], fun hclean => ?_⟩
        refine (hreaches (Bool.or_eq_false_iff.mp hclean).1).mono ?_
        intro l hl
        rw [List.flatMap_cons]
        exact List.mem_append_left _ hl
      · rintro name ⟨hreads, hreaches⟩
        refine ⟨by rw [hreads, Bool.or_true], fun hclean => ?_⟩
        refine (hreaches (Bool.or_eq_false_iff.mp hclean).2).mono ?_
        intro l hl
        rw [List.flatMap_cons]
        exact List.mem_append_right _ hl
    · rw [FieldTree.anyReads, FieldTree.anyStrands, hfilter, Bool.false_and, Bool.false_and,
        Bool.false_or, Bool.false_or]
      exact nestedFilters_adds p ts scope hrest hserved

end

end Planner

end ShapeSql
