import ShapeSql.Proofs.Plan.Collected
import ShapeSql.Proofs.Plan.Draft

namespace ShapeSql

open Sql Planning

/-- The place and the path of a field's comparison. -/
def comparison (field : Field) : Place × Path := (.expr, field.path)

/-- What marks one kind of place marks no place of another kind. -/
theorem not_mem_map_of_ne {place other : Place} (hne : place ≠ other) (fields : List Field)
    (path : Path) : (place, path) ∉ fields.map fun field => (other, field.path) := by
  intro hmem
  obtain ⟨field, _, hfield⟩ := List.mem_map.mp hmem
  exact hne (congrArg Prod.fst hfield).symm

namespace Planner

variable {d d' : Draft}

/-- A comparison derives its parameters from a base, or declares one. -/
theorem predicateParam_eq (field : Field) :
    (field.predicateKind = .inList ∧ predicateParam field = baseName field.path.paramName) ∨
      (field.predicateKind ≠ .inList ∧ ∃ transform, transform ≠ .required ∧
        predicateParam field = param field.path transform) := by
  unfold predicateParam
  split
  · rename_i hkind
    exact .inl ⟨hkind, rfl⟩
  · rename_i mode _ hkind
    exact .inr ⟨hkind, .like mode, nofun, rfl⟩
  · rename_i hkind
    exact .inr ⟨hkind, .asIs, nofun, rfl⟩

/-- A hole for a comparison, of the path of its field. -/
theorem predicate_extends {column e : Expr} {field : Field} {ignore : Option Ignore} (hd : d.Sound)
    (hcolumn : column.collect .leaves () = [])
    (hrun : (predicate column field ignore).run d = .ok (e, d')) :
    d.Extends [comparison field] d' ∧ d'.Fills (e.collect .leaves ()) := by
  simp only [predicate, run_bind_ok, run_pure_ok] at hrun
  obtain ⟨name, between, hname, hole, after, hhole, rfl, rfl⟩ := hrun
  have hparam : d.Extends [] between ∧ Admits between field.path (.predicate
      ⟨column, field.predicateKind, field.directives.negate, ignore, name⟩) := by
    have hleaves : ∀ l ∈ column.collect .leaves (), l.FilledBy between.rules := by
      rw [hcolumn]
      exact nofun
    rcases predicateParam_eq field with ⟨hkind, heq⟩ | ⟨hkind, transform, htransform, heq⟩
    · obtain ⟨hext, haside, hderived⟩ := baseName_extends hd (heq ▸ hname)
      refine ⟨hext, hleaves, ?_, ?_, trivial⟩
      · rintro other ⟨_, rfl | ⟨i, rfl⟩⟩
        · exact haside
        · exact hderived _ (Names.derives_itemName name i)
      · intro other hother
        simp [Action.param?, hkind] at hother
    · obtain ⟨hext, q, hq, rfl, hpath, rfl⟩ := param_extends hd (heq ▸ hname)
      refine ⟨hext, hleaves, ?_, ?_, trivial⟩
      · rintro other ⟨hlist, _⟩
        exact absurd hlist hkind
      · intro other hother
        simp only [Action.param?, if_neg hkind, Option.some.injEq] at hother
        exact ⟨q, hq, hother, hpath, htransform⟩
  obtain ⟨hrule, hfilled⟩ := rule_extends hparam.1.sound hparam.2 hhole
  refine ⟨(hparam.1.trans hrule).mono ?_, ?_⟩
  · rw [List.nil_append, Action.mark]
    split
    · exact List.Sublist.refl _
    · exact List.nil_sublist _
  · exact Draft.fills_hole hfilled

/-- A guard keeps the condition in its own fragment. -/
theorem guarded_extends {path : Path} {ignore : Option Ignore} {expr e : Expr} (hd : d.Sound)
    (hexpr : d.Fills (expr.collect .leaves ())) (hrun : (guarded path ignore expr).run d = .ok (e, d')) :
    d.Extends [] d' ∧ d'.Fills (e.collect .leaves ()) := by
  cases ignore with
  | none =>
    simp only [guarded, run_pure_ok] at hrun
    obtain ⟨rfl, rfl⟩ := hrun
    exact ⟨.refl hd, hexpr⟩
  | some ignore =>
    simp only [guarded, run_bind_ok, run_pure_ok] at hrun
    obtain ⟨hole, after, hhole, rfl, rfl⟩ := hrun
    have hadmits : Admits d path (.guard ignore expr) := ⟨hexpr, nofun, nofun, trivial⟩
    obtain ⟨hrule, hfilled⟩ := rule_extends hd hadmits hhole
    exact ⟨hrule, Draft.fills_hole hfilled⟩

/-- The row sources of a chain, and what ties it to the row source outside, leave nothing open. -/
theorem chain_extends (p : Planner) {outer : String} {legs : List Leg}
    {found : Option (Source × Expr × String × Table)} (hd : d.Sound)
    (hrun : (p.chain outer legs).run d = .ok (found, d')) :
    d.Extends [] d' ∧ ∀ chained ∈ found,
      sourceCollect .leaves () (some chained.1) = [] ∧ chained.2.1.collect .leaves () = [] := by
  cases legs with
  | nil =>
    simp only [chain, run_pure_ok] at hrun
    obtain ⟨rfl, rfl⟩ := hrun
    exact ⟨.refl hd, nofun⟩
  | cons first rest =>
    simp only [chain, run_bind_ok, run_pure_ok] at hrun
    obtain ⟨aliasName, start, hstart, walked, last, hwalk, rfl, rfl⟩ := hrun
    have hfirst := freshAlias_extends hd hstart
    have hlegs : start.Extends [] last ∧ sourceCollect .leaves () (some walked.1) = [] := by
      apply foldlM_extends (fun walked => sourceCollect .leaves () (some walked.1) = []) _
        hfirst.sound _ hwalk
      · intro from' leg d d' next hd hclosed hnext
        simp only [run_bind_ok, run_pure_ok] at hnext
        obtain ⟨fresh, after, hfresh, rfl, rfl⟩ := hnext
        refine ⟨freshAlias_extends hd hfresh, ?_⟩
        rw [Source.collect_join, hclosed]
        simp
      · simp
    refine ⟨hfirst.trans hlegs.1, ?_⟩
    intro chained hchained
    cases hchained
    exact ⟨hlegs.2, p.collect_pairsEq _ _ _⟩

theorem viaExists_extends (p : Planner) {scope : Scope} {v : Via} {field : Field} {e : Expr}
    (hd : d.Sound) (hrun : (p.viaExists scope v field).run d = .ok (e, d')) :
    d.Extends [comparison field] d' ∧ d'.Fills (e.collect .leaves ()) := by
  simp only [viaExists, run_bind_ok, run_lift_ok] at hrun
  obtain ⟨legs, _, ⟨_, rfl⟩, found, between, hchain, hrest⟩ := hrun
  obtain ⟨hext, hclosed⟩ := p.chain_extends hd hchain
  match found with
  | none =>
    simp only [run_pure_ok] at hrest
    obtain ⟨rfl, rfl⟩ := hrest
    refine ⟨hext.mono (List.nil_sublist _), ?_⟩
    rw [Expr.collect_tautology]
    exact Draft.fills_nil
  | some (source, tie, lastAlias, last) =>
    obtain ⟨hsource, htie⟩ := hclosed _ rfl
    simp only [run_bind_ok, run_lift_ok, run_pure_ok] at hrest
    obtain ⟨column, _, ⟨_, rfl⟩, condition, _, hcondition, rfl, rfl⟩ := hrest
    obtain ⟨hpredicate, hfills⟩ :=
      predicate_extends hext.sound (Expr.collect_columnOf _ _) hcondition
    refine ⟨hext.trans hpredicate, ?_⟩
    intro l hl
    rw [Expr.collect, Query.mem_collect_restrict, Query.mem_collect_restrict, mem_collect_probe, hsource,
      htie] at hl
    simp only [Collector.leaves_ordering, List.not_mem_nil, false_or] at hl
    exact hfills l hl

/-- The row source of a link and what ties it to the one outside leave nothing open. -/
theorem linked_extends (p : Planner) {outer : String} {target : Table} {link : Link}
    {found : String × Source × Expr} (hd : d.Sound)
    (hrun : (p.linked outer target link).run d = .ok (found, d')) :
    d.Extends [] d' ∧ sourceCollect .leaves () (some found.2.1) = [] ∧
      found.2.2.collect .leaves () = [] := by
  cases link with
  | parentHolds pairs | childHolds pairs =>
    simp only [linked, run_bind_ok, run_pure_ok] at hrun
    obtain ⟨aliasName, between, hfresh, rfl, rfl⟩ := hrun
    exact ⟨freshAlias_extends hd hfresh, by simp, p.collect_pairsEq _ _ _⟩
  | junction table toParent toChild =>
    simp only [linked, run_bind_ok, run_pure_ok] at hrun
    obtain ⟨aliasName, between, hfresh, junction, after, hjunction, rfl, rfl⟩ := hrun
    have hext := freshAlias_extends hd hfresh
    refine ⟨hext.trans (freshAlias_extends hext.sound hjunction), ?_, p.collect_pairsEq _ _ _⟩
    rw [Source.collect_join]
    simp

/-- How a field becomes a condition: along its via-relation, on its column, not at all where its type
recurs, or by the fields below it, on the same row or on one of the table that it is linked to. -/
inductive Translates (p : Planner) (scope : Scope) (ignore : Option Ignore) (field : Field)
    (kids : List FieldTree) (d : Draft) : Expr → Draft → Prop
  | via {v : Via} {condition e : Expr} {between d' : Draft} (hvia : field.directives.via = some v)
      (hcondition : (p.viaExists scope v field).run d = .ok (condition, between))
      (hguard : (guarded field.path ignore condition).run between = .ok (e, d')) :
    Translates p scope ignore field kids d e d'
  | column {column : Column} {e : Expr} {d' : Draft} (hvia : field.directives.via = none)
      (hscalar : field.isScalar = true) (hcolumn : p.resolver.column scope.table field = .ok column)
      (hpredicate : (predicate (.columnOf scope.aliasName column.name) field ignore).run d =
        .ok (e, d')) :
    Translates p scope ignore field kids d e d'
  | cyclic (hvia : field.directives.via = none) (hshape : ¬field.isScalar = true)
      (hcyclic : field.cyclic = true) :
    Translates p scope ignore field kids d .tautology d
  | here {operands : List Expr} {e : Expr} {between d' : Draft}
      (hvia : field.directives.via = none) (hshape : ¬field.isScalar = true)
      (hacyclic : ¬field.cyclic = true)
      (hoperands : (p.nestedFilters scope kids).run d = .ok (operands, between))
      (hguard : (guarded field.path ignore (.allOf operands)).run between = .ok (e, d')) :
    Translates p scope ignore field kids d e d'
  | linked {target : Table} {link : Link} {tied : String × Source × Expr} {operands : List Expr}
      {e : Expr} {between after d' : Draft} (hvia : field.directives.via = none)
      (hshape : ¬field.isScalar = true) (hacyclic : ¬field.cyclic = true)
      (htarget : p.otherTable scope field = .ok (some target))
      (hlink : p.filterLink scope target field = .ok link)
      (hlinked : (p.linked scope.aliasName target link).run d = .ok (tied, between))
      (hoperands : (p.nestedFilters ⟨tied.1, target⟩ kids).run between = .ok (operands, after))
      (hguard : (guarded field.path ignore (relatedExists tied.2.1 tied.2.2 (.allOf operands))).run
        after = .ok (e, d')) :
    Translates p scope ignore field kids d e d'

theorem translates_of_fieldFilter {p : Planner} {scope : Scope} {ignore : Option Ignore}
    {field : Field} {kids : List FieldTree} {e : Expr}
    (hrun : (p.fieldFilter scope ignore (.node field kids)).run d = .ok (e, d')) :
    p.Translates scope ignore field kids d e d' := by
  rw [fieldFilter] at hrun
  split at hrun
  · split at hrun
    · simp only [run_bind_ok, run_throw_ok, false_and, exists_false] at hrun
    · simp only [run_bind_ok] at hrun
      obtain ⟨condition, between, hcondition, hguard⟩ := hrun
      exact .via ‹_› hcondition hguard
  · split at hrun
    · simp only [run_bind_ok, run_lift_ok] at hrun
      obtain ⟨column, _, ⟨hcolumn, rfl⟩, hpredicate⟩ := hrun
      exact .column ‹_› ‹_› hcolumn hpredicate
    · split at hrun
      · rw [run_pure_ok] at hrun
        obtain ⟨rfl, rfl⟩ := hrun
        exact .cyclic ‹_› ‹_› ‹_›
      · split at hrun
        · rw [run_throw_ok] at hrun
          exact hrun.elim
        · simp only [run_bind_ok, run_lift_ok] at hrun
          obtain ⟨target, _, ⟨htarget, rfl⟩, hrest⟩ := hrun
          cases target with
          | none =>
            simp only [run_bind_ok] at hrest
            obtain ⟨operands, between, hoperands, hguard⟩ := hrest
            exact .here ‹_› ‹_› ‹_› hoperands hguard
          | some target =>
            simp only [run_bind_ok, run_lift_ok] at hrest
            obtain ⟨link, _, ⟨hlink, rfl⟩, tied, between, hlinked, operands, after, hoperands,
              hguard⟩ := hrest
            exact .linked ‹_› ‹_› ‹_› htarget hlink hlinked hoperands hguard

/-- Of nested fields, those that filter become conditions, one after the other. -/
theorem nestedFilters_cons {p : Planner} {scope : Scope} {t : FieldTree} {ts : List FieldTree}
    {es : List Expr} (hrun : (p.nestedFilters scope (t :: ts)).run d = .ok (es, d')) :
    (t.label.directives.isFilter = true ∧ ∃ first between rest,
      (p.fieldFilter scope t.label.directives.ignore t).run d = .ok (first, between) ∧
      (p.nestedFilters scope ts).run between = .ok (rest, d') ∧ es = first :: rest) ∨
    (t.label.directives.isFilter = false ∧ (p.nestedFilters scope ts).run d = .ok (es, d')) := by
  rw [nestedFilters] at hrun
  split at hrun
  · simp only [run_bind_ok, run_pure_ok] at hrun
    obtain ⟨first, between, hfirst, rest, after, hrest, rfl, rfl⟩ := hrun
    exact Or.inl ⟨‹_›, first, between, rest, hfirst, hrest, rfl⟩
  · rename_i hother
    exact Or.inr ⟨(Bool.not_eq_true _).mp hother, hrun⟩

mutual

theorem fieldFilter_extends (p : Planner) : ∀ (t : FieldTree) (scope : Scope)
    (ignore : Option Ignore) {d d' : Draft} {e : Expr}, d.Sound →
      (p.fieldFilter scope ignore t).run d = .ok (e, d') →
        d.Extends (t.preorder.map comparison) d' ∧ d'.Fills (e.collect .leaves ())
  | .node field kids, scope, ignore, d, d', e, hd, hrun => by
    have hown : [comparison field].Sublist ((Tree.node field kids).preorder.map comparison) :=
      List.singleton_sublist.mpr List.mem_cons_self
    have hbelow : ((Tree.preorderAll kids).map comparison).Sublist
        ((Tree.node field kids).preorder.map comparison) := List.sublist_cons_self _ _
    cases translates_of_fieldFilter hrun with
    | via _ hcondition hguard =>
      obtain ⟨hexists, hfills⟩ := p.viaExists_extends hd hcondition
      obtain ⟨hrest, hguarded⟩ := guarded_extends hexists.sound hfills hguard
      exact ⟨(hexists.trans hrest).mono (by simpa using hown), hguarded⟩
    | column _ _ _ hpredicate =>
      obtain ⟨hext, hfills⟩ := predicate_extends hd (Expr.collect_columnOf _ _) hpredicate
      exact ⟨hext.mono hown, hfills⟩
    | cyclic =>
      refine ⟨(Draft.Extends.refl hd).mono (List.nil_sublist _), ?_⟩
      rw [Expr.collect_tautology]
      exact Draft.fills_nil
    | @here operands _ between _ _ _ _ hoperands hguard =>
      obtain ⟨hnested, hfills⟩ := nestedFilters_extends p kids scope hd hoperands
      have hall : between.Fills ((Expr.allOf operands).collect .leaves ()) := by
        rw [Expr.collect_allOf]
        exact hfills
      obtain ⟨hlast, hguarded⟩ := guarded_extends hnested.sound hall hguard
      exact ⟨(hnested.trans hlast).mono (by simpa using hbelow), hguarded⟩
    | @linked _ _ tied operands _ _ after _ _ _ _ _ _ hlinked hoperands hguard =>
      obtain ⟨hlink, hsource, htie⟩ := p.linked_extends hd hlinked
      obtain ⟨hnested, hfills⟩ := nestedFilters_extends p kids _ hlink.sound hoperands
      have hall : after.Fills
          ((relatedExists tied.2.1 tied.2.2 (Expr.allOf operands)).collect .leaves ()) := by
        intro l hl
        have hin := mem_collect_relatedExists hl
        rw [hsource, htie, Expr.collect_allOf] at hin
        simp only [Collector.leaves_ordering, List.not_mem_nil, false_or] at hin
        exact hfills l hin
      obtain ⟨hlast, hguarded⟩ := guarded_extends hnested.sound hall hguard
      exact ⟨((hlink.trans hnested).trans hlast).mono (by simpa using hbelow), hguarded⟩

theorem nestedFilters_extends (p : Planner) : ∀ (ts : List FieldTree) (scope : Scope)
    {d d' : Draft} {es : List Expr}, d.Sound → (p.nestedFilters scope ts).run d = .ok (es, d') →
      d.Extends ((Tree.preorderAll ts).map comparison) d' ∧
        d'.Fills (es.flatMap (Expr.collect .leaves ()))
  | [], scope, d, d', es, hd, hrun => by
    rw [nestedFilters, run_pure_ok] at hrun
    obtain ⟨rfl, rfl⟩ := hrun
    exact ⟨.refl hd, Draft.fills_nil⟩
  | t :: ts, scope, d, d', es, hd, hrun => by
    rw [Tree.preorderAll, List.map_append]
    rcases nestedFilters_cons hrun with ⟨_, first, between, rest, hfirst, hrest, rfl⟩ | ⟨_, hrest⟩
    · obtain ⟨hhead, hfills⟩ := fieldFilter_extends p t scope _ hd hfirst
      obtain ⟨htail, hothers⟩ := nestedFilters_extends p ts scope hhead.sound hrest
      exact ⟨hhead.trans htail, (htail.fills hfills).append hothers⟩
    · obtain ⟨hext, hfills⟩ := nestedFilters_extends p ts scope hd hrest
      exact ⟨hext.mono (List.sublist_append_right _ _), hfills⟩

end

end Planner

end ShapeSql
