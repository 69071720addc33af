import ShapeSql.Proofs.Bind.Scoped
import ShapeSql.Proofs.Plan.Ignored

namespace ShapeSql

open Sql

/-- The plan of a specification without the condition of the filter argument at place `k`. -/
def Plan.ofSpecWithout (r : Resolver) (windowAlias : String) (spec : QuerySpec) (k : Nat) :
    Except Error Plan := do
  let table ← targetTable r spec
  if !spec.operation.allows spec.outputKind then
    throw (.badAttribute (.unavailable spec.operation spec.outputKind))
  let arguments ← Arguments.classify spec.operation spec.arguments.children
  let planner : Planner :=
    ⟨r, windowAlias, table, spec.operation, spec.output, spec.outputKind, arguments⟩
  let ((batch, relations), draft) ← (planner.statementsWithout k).run default
  return ⟨batch, draft.rules, draft.params, relations⟩

/-- A specification that is planned is planned without the condition as well, with the same rules. -/
theorem Plan.ofSpecWithout_ok {r : Resolver} {windowAlias : String} {spec : QuerySpec} {plan : Plan}
    (hplan : ofSpec r windowAlias spec = .ok plan) {p : Planner} (hp : PlannedBy r windowAlias spec p)
    {k : Nat} {planned : Batch} {d : Draft}
    (hrun : (p.statementsWithout k).run default = .ok ((planned, plan.relations), d))
    (hrules : plan.rules = d.rules) (hparams : plan.params = d.params) :
    ofSpecWithout r windowAlias spec k = .ok { plan with batch := planned } := by
  unfold ofSpec at hplan
  obtain ⟨table, htable, hplan⟩ := except_bind_ok.mp hplan
  split at hplan
  · cases hplan
  · rename_i hallowed
    obtain ⟨arguments, harguments, _⟩ := except_bind_ok.mp hplan
    rw [hp.eq htable harguments] at hrun
    unfold ofSpecWithout
    refine except_bind_ok.mpr ⟨table, htable, ?_⟩
    rw [if_neg hallowed]
    refine except_bind_ok.mpr ⟨arguments, harguments, ?_⟩
    refine except_bind_ok.mpr ⟨((planned, plan.relations), d), hrun, ?_⟩
    rw [hrules, hparams]
    rfl

/-- Compiles a specification without the condition of the filter argument at place `k`. -/
def Compiler.compileWithout (c : Compiler) (spec : QuerySpec) (k : Nat) : Except Error Compiled := do
  let plan ← Plan.ofSpecWithout c.resolver c.options.keyWindowAlias spec k
  return ⟨c.schema, plan, c.materializer? spec plan, spec.outputKind⟩

namespace Sql

/-- A filled hole has what it is bound to, with its own holes filled. -/
theorem HoleFiller.ofSubstitution_expr {subs : Substitution} {id : HoleId} {e : Expr}
    (h : subs.find? id = some (.expr e)) :
    ∃ inner, (HoleFiller.ofSubstitution subs).expr id = e.filled inner := by
  obtain ⟨inner, hsame⟩ := ofSubstitution_eq_filling subs
  refine ⟨inner, ?_⟩
  rw [hsame, filling]
  simp only [h]

/-- Queries that are alike once they are pruned return the same rows. -/
theorem Batch.rows_of_pruned_eq {batch other : Batch} (h : batch.pruned = other.pruned)
    {query : Query} (hquery : batch = [.query query]) :
    ∃ alike, other = [.query alike] ∧ ∀ w outer, query.rows w outer = alike.rows w outer := by
  rw [hquery] at h
  obtain ⟨st, rest, rfl, hst, hrest⟩ := List.map_eq_cons_iff.mp h.symm
  obtain rfl := List.map_eq_nil_iff.mp hrest
  cases st with
  | query alike =>
    have hpruned : alike.pruned = query.pruned := Statement.query.inj hst
    refine ⟨alike, rfl, ?_⟩
    intro w outer
    rw [← query.rows_pruned outer, ← alike.rows_pruned outer, hpruned]
  | declare _ _ | delete _ _ | insert _ _ _ | merge _ | update _ => cases hst

end Sql

/-- Where the value of an argument is absent, a condition that may be left out asks for nothing. -/
theorem Plan.asked_leftOut {plan : Plan} (hplan : plan.Sound) {s : Schema} {args : Value}
    {subs : Substitution} {params : Params} (hsubs : plan.substitution s args = .ok (subs, params))
    {d : Draft} (hrules : plan.rules = d.rules) {path : Path} {ignore : Ignore} {e : Expr}
    (hignorable : Ignorable d path ignore e) (habsent : ignore.covers (args.entry path) = true) :
    e.asked (.ofSubstitution subs) = [] := by
  rcases hignorable with rfl | ⟨rule, hrule, rfl, rfl, hleftOut⟩
  · exact Expr.asked_tautology
  · obtain ⟨b, _, hb, _, _, _, rfl, _⟩ := Plan.binds_of_substitution hplan hsubs
    obtain ⟨f, hf, hfound⟩ := hb.filled rule (hrules ▸ hrule)
    rw [HoleRule.fill_leftOut hleftOut habsent hf] at hfound
    obtain ⟨inner, hfilled⟩ := HoleFiller.ofSubstitution_expr hfound
    rw [Expr.asked, Expr.filled, hfilled]
    rfl

namespace Compiler

variable {c : Compiler} {spec : QuerySpec} {compiled : Compiled}

/-- An absent argument that may be ignored restricts nothing: the bound statement asks for the same as the
one planned without the argument's condition, and returns the same rows, unless the argument filters a
page by a collection. -/
theorem compile_ignored (hcompile : c.compile spec = .ok compiled) {arguments : Arguments}
    (harguments : Arguments.classify spec.operation spec.arguments.children = .ok arguments)
    {k : Nat} {argument : FieldTree} (hk : arguments.filters[k]? = some argument) {ignore : Ignore}
    (hignore : argument.label.directives.ignore = some ignore)
    (hfilters : ∀ p, Plan.PlannedBy c.resolver c.options.keyWindowAlias spec p → p.Filters)
    (hone : arguments.isPaged = true → argument.label.directives.join ≠ none →
      ∀ relations filters, c.FilteredBy spec relations filters →
        ∀ filter, filters[k]? = some filter → Planner.OnCollection relations filter = false)
    {args : Value} {bound : Bound} (hbind : compiled.bind args = .ok bound)
    (habsent : ignore.covers (args.entry argument.label.path) = true) :
    ∃ without batch other, c.compileWithout spec k = .ok without ∧
      without.plan = { compiled.plan with batch := without.plan.batch } ∧
      compiled.resolved args = .ok batch ∧ batch.render .empty = .ok bound.sql ∧
      without.resolved args = .ok other ∧ batch.pruned = other.pruned ∧
      ∀ query, batch = [.query query] →
        ∃ alike, other = [.query alike] ∧ ∀ w outer, query.rows w outer = alike.rows w outer := by
  obtain ⟨hsame, hplan⟩ := ofSpec_of_compile hcompile
  obtain ⟨p, d, hp, hrun, hrules, hparams⟩ := Plan.ofSpec_planner hplan
  obtain ⟨subs, params, batch, hsubs, hresolved, hbatch, hrender⟩ :=
    Compiled.resolved_of_bind hbind
  have hclassify := hp.arguments
  rw [harguments] at hclassify
  cases hclassify
  have hleftOut : ∀ e, Planner.LeavesOut d argument e → e.asked (.ofSubstitution subs) = [] :=
    fun e hleaves => Plan.asked_leftOut (Plan.ofSpec_sound hplan) hsubs hrules
      (hleaves ignore hignore) habsent
  have hitself : p.arguments.isPaged = true → ∀ start filters joined between,
      p.outputRelations = .ok start →
      (p.selectFilters start p.arguments.filters).run default = .ok ((filters, joined), between) →
        ∀ filter, filters[k]? = some filter →
          Planner.OnCollection (joined.anchorKeys p.schema) filter = false := by
    intro hpaged start filters joined between hstart hselected filter hfilter
    by_cases hjoin : argument.label.directives.join = none
    · obtain ⟨other, hother, htarget⟩ :=
        getElem?_of_forall₂ (Planner.selectFilters_target hselected) hk
      rw [hfilter] at hother
      cases hother
      rw [Planner.OnCollection, htarget hjoin]
      rfl
    · exact hone hpaged hjoin _ filters ⟨p, start, joined, between, hp, hstart, hselected, rfl⟩
        filter hfilter
  obtain ⟨planned, hwithout, hpruned⟩ :=
    Planner.statementsWithout_pruned hk (hfilters p hp) hleftOut hitself hrun
  have hplanned := Plan.ofSpecWithout_ok hplan hp hwithout hrules hparams
  let without : Compiled := ⟨c.schema, { compiled.plan with batch := planned },
    c.materializer? spec { compiled.plan with batch := planned }, spec.outputKind⟩
  have hcompiled : c.compileWithout spec k = .ok without :=
    except_bind_ok.mpr ⟨_, hplanned, rfl⟩
  have hother : without.resolved args = .ok (planned.filled subs) := by
    have hbound : without.plan.substitution without.schema args = .ok (subs, params) := by
      rw [hsame] at hsubs
      exact hsubs
    rw [Compiled.resolved, hbound]
    rfl
  have halike : batch.pruned = (planned.filled subs).pruned := hbatch ▸ hpruned.symm
  exact ⟨without, batch, planned.filled subs, hcompiled, rfl, hresolved, hrender, hother, halike,
    fun query hquery => Batch.rows_of_pruned_eq halike hquery⟩

/-- A page of people with a pet of a name, if one is given. -/
def askedPage : SpecDeclaration where
  operation := .select
  table := some "Person"
  arguments := [
    ⟨"pet", .shape "Called", false, { (default : Directives) with ignore := some .ifNull }⟩,
    ⟨"Take", .i32, false, { (default : Directives) with fetch := true }⟩]
  returns := [.many "Person"]

def askedArguments : Value := .record [("pet", .null), ("Take", .i32 5)]

/-- The first filter argument of a page, by a relation or not, is absent in the sense of its directive,
and the page is bound. -/
def absentTest (args : Value) (related : Bool) (spec : QuerySpec) (compiled : Compiled) : Bool :=
  spec.operation == .select &&
  ((compiled.bind args).toOption.any fun _ => true) &&
  (Arguments.classify spec.operation spec.arguments.children).toOption.any fun arguments =>
    arguments.isPaged && (arguments.filters[0]?).any fun argument =>
      argument.label.directives.join.isSome == related &&
        argument.label.directives.ignore.any fun ignore =>
          ignore.covers (args.entry argument.label.path)

def askedTest (_ : Compiler) (spec : QuerySpec) (compiled : Compiled) : Bool :=
  absentTest askedArguments false spec compiled

/-- A page of people without a name for the pet is the page without the condition. -/
theorem compile_ignored_asked :
    ∃ schema spec compiled bound without batch other,
      Schema.build kennelDeclarations = .ok schema ∧ askedPage.build kennelShapes = .ok spec ∧
      (⟨schema, default, .exact⟩ : Compiler).compile spec = .ok compiled ∧
      compiled.bind askedArguments = .ok bound ∧
      (⟨schema, default, .exact⟩ : Compiler).compileWithout spec 0 = .ok without ∧
      compiled.resolved askedArguments = .ok batch ∧ without.resolved askedArguments = .ok other ∧
      batch.pruned = other.pruned := by
  obtain ⟨schema, spec, compiled, hschema, hspec, hcompile, htest⟩ :
      ∃ schema spec compiled, Schema.build kennelDeclarations = .ok schema ∧
        askedPage.build kennelShapes = .ok spec ∧
        (⟨schema, default, .exact⟩ : Compiler).compile spec = .ok compiled ∧
        askedTest ⟨schema, default, .exact⟩ spec compiled = true :=
    exists_compiled (by decide +kernel)
  simp only [askedTest, absentTest, Bool.and_eq_true, beq_iff_eq] at htest
  obtain ⟨⟨hselect, hbinds⟩, hclassifies⟩ := htest
  obtain ⟨bound, hbind, _⟩ := exists_ok_of_any hbinds
  obtain ⟨arguments, harguments, hfirst⟩ := exists_ok_of_any hclassifies
  obtain ⟨_, hfirst⟩ := Bool.and_eq_true_iff.mp hfirst
  obtain ⟨argument, hk, hargument⟩ := (Option.any_eq_true _ _).mp hfirst
  obtain ⟨hjoin, hignored⟩ := Bool.and_eq_true_iff.mp hargument
  obtain ⟨ignore, hignore, habsent⟩ := (Option.any_eq_true _ _).mp hignored
  have hunrelated : argument.label.directives.join = none := by
    rw [beq_iff_eq, Option.isSome_eq_false_iff, Option.isNone_iff_eq_none] at hjoin
    exact hjoin
  obtain ⟨without, batch, other, hwithout, _, hresolved, _, hother, hpruned, _⟩ :=
    compile_ignored hcompile harguments hk hignore
      (fun p hp => .inl (hp.operation.trans hselect))
      (fun _ hjoin => absurd hunrelated hjoin) hbind habsent
  exact ⟨schema, spec, compiled, bound, without, batch, other, hschema, hspec, hcompile, hbind,
    hwithout, hresolved, hother, hpruned⟩

/-- A page of people by the name of a pet, if one is given. -/
def droppedPage : SpecDeclaration where
  operation := .select
  table := some "Person"
  arguments := [
    ⟨"Name", .text, false,
      { (default : Directives) with join := some ⟨["Pets"]⟩, ignore := some .ifNull }⟩,
    ⟨"Skip", .i32, false, { (default : Directives) with offset := true }⟩,
    ⟨"Take", .i32, false, { (default : Directives) with fetch := true }⟩]
  returns := [.many "Person"]

def droppedArguments : Value := .record [("Name", .null), ("Skip", .i32 0), ("Take", .i32 5)]

/-- The page asks for a pet, and does not without the condition. -/
def droppedTest (c : Compiler) (spec : QuerySpec) (compiled : Compiled) : Bool :=
  absentTest droppedArguments true spec compiled &&
  ((compiled.resolved droppedArguments).toOption.any fun batch =>
    decide (.clause ["Pets"] ∈ batch.pruned.sites compiled.schema)) &&
  (c.compileWithout spec 0).toOption.any fun without =>
    (without.resolved droppedArguments).toOption.any fun other =>
      !decide (.clause ["Pets"] ∈ other.pruned.sites compiled.schema)

/-- Without a name for the pet the page still asks for people with a pet, and would not without the
condition. -/
theorem unignored_pets :
    ∃ schema spec compiled arguments argument ignore bound without batch other,
      Schema.build kennelDeclarations = .ok schema ∧ droppedPage.build kennelShapes = .ok spec ∧
      (⟨schema, default, .exact⟩ : Compiler).compile spec = .ok compiled ∧
      Arguments.classify spec.operation spec.arguments.children = .ok arguments ∧
      arguments.filters[0]? = some argument ∧
      argument.label.directives.ignore = some ignore ∧
      ignore.covers (droppedArguments.entry argument.label.path) = true ∧
      compiled.bind droppedArguments = .ok bound ∧
      (⟨schema, default, .exact⟩ : Compiler).compileWithout spec 0 = .ok without ∧
      compiled.resolved droppedArguments = .ok batch ∧
      without.resolved droppedArguments = .ok other ∧
      .clause ["Pets"] ∈ batch.pruned.sites compiled.schema ∧
      .clause ["Pets"] ∉ other.pruned.sites compiled.schema ∧ batch.pruned ≠ other.pruned := by
  obtain ⟨schema, spec, compiled, hschema, hspec, hcompile, htest⟩ :
      ∃ schema spec compiled, Schema.build kennelDeclarations = .ok schema ∧
        droppedPage.build kennelShapes = .ok spec ∧
        (⟨schema, default, .exact⟩ : Compiler).compile spec = .ok compiled ∧
        droppedTest ⟨schema, default, .exact⟩ spec compiled = true :=
    exists_compiled (by decide +kernel)
  simp only [droppedTest, absentTest, Bool.and_eq_true] at htest
  obtain ⟨⟨⟨⟨_, hbinds⟩, hclassifies⟩, hresolves⟩, hplans⟩ := htest
  obtain ⟨bound, hbind, _⟩ := exists_ok_of_any hbinds
  obtain ⟨arguments, harguments, hfirst⟩ := exists_ok_of_any hclassifies
  obtain ⟨_, hfirst⟩ := Bool.and_eq_true_iff.mp hfirst
  obtain ⟨argument, hk, hargument⟩ := (Option.any_eq_true _ _).mp hfirst
  obtain ⟨_, hignored⟩ := Bool.and_eq_true_iff.mp hargument
  obtain ⟨ignore, hignore, habsent⟩ := (Option.any_eq_true _ _).mp hignored
  obtain ⟨batch, hresolved, hclause⟩ := exists_ok_of_any hresolves
  obtain ⟨without, hwithout, hother⟩ := exists_ok_of_any hplans
  obtain ⟨other, hother, hnone⟩ := exists_ok_of_any hother
  have hasks : .clause ["Pets"] ∈ batch.pruned.sites compiled.schema := of_decide_eq_true hclause
  have hdoesNot : .clause ["Pets"] ∉ other.pruned.sites compiled.schema := by
    rw [Bool.not_eq_true'] at hnone
    exact of_decide_eq_false hnone
  have hdiffer : batch.pruned ≠ other.pruned := by
    intro hsame
    rw [hsame] at hasks
    exact hdoesNot hasks
  exact ⟨schema, spec, compiled, arguments, argument, ignore, bound, without, batch, other, hschema,
    hspec, hcompile, harguments, hk, hignore, habsent, hbind, hwithout, hresolved, hother, hasks,
    hdoesNot, hdiffer⟩

end Compiler

end ShapeSql
