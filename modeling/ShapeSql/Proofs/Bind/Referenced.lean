import ShapeSql.Proofs.Bind.Reached
import ShapeSql.Proofs.Bind.Scoped

namespace ShapeSql

open Sql Planning

/-- Whether the comparison or the assignment is left out at this value. -/
def Action.isOmitted (value : Value) : Action → Bool
  | .predicate p => isIgnored p.ignore value
  | .assign _ _ ignore => isIgnored ignore value
  | _ => false

/-- What is left out brings no parameter, and takes back the one it declares. -/
theorem HoleRule.fill_omitted {s : Schema} {rule : HoleRule} {value : Value}
    (h : rule.action.isOmitted value = true) : ∃ f, rule.fill s value = .ok f ∧ f.added = [] ∧
      ∀ name, rule.action.param? = some name → name ∈ f.removed := by
  obtain ⟨hole, path, action⟩ := rule
  cases action with
  | predicate p =>
    have hignored : isIgnored p.ignore value = true := h
    refine ⟨_, rfl, ?_⟩
    rw [Predicate.fill, if_pos hignored]
    refine ⟨rfl, ?_⟩
    intro name hparam
    rw [Action.param?] at hparam
    split at hparam
    · cases hparam
    · cases hparam
      exact List.mem_singleton.mpr rfl
  | assign column param ignore =>
    have hignored : isIgnored ignore value = true := h
    refine ⟨.without param (.assignments []), ?_, rfl, ?_⟩
    · rw [HoleRule.fill]
      exact if_pos hignored
    · intro name hparam
      cases hparam
      exact List.mem_singleton.mpr rfl
  | guard _ _ | order _ | dynamicOrder _ _ | rows _ | keyMatch _ _ => cases h

/-- Where nothing is left behind, what rules want and what is declared without them is mentioned. -/
theorem Plan.mentions_of_bound {plan : Plan} {p : Planner} {d : Draft} {s : Schema} {args : Value}
    {b : Binding} (hrun : (statements p).run default = .ok ((plan.batch, plan.relations), d))
    (hrules : plan.rules = d.rules) (hparams : plan.params = d.params)
    (hb : b.Binds s args plan.rules) (hclean : ¬p.LeavesBehind args) {name : String}
    (h : ((∃ q ∈ plan.params, q.name = name) ∧ name ∉ b.removed) ∨ name ∈ b.added.names) :
    plan.batch.Mentions b.subs name := by
  have hserved : ∀ rule ∈ d.rules, rule.Served s args b.subs := by
    rw [← hrules]
    exact hb.filled
  have hadds := Planner.statements_reach hclean hrun hserved
  have hwanted : ∀ rule ∈ d.rules, rule.Wants s args name → plan.batch.Mentions b.subs name := by
    intro rule hrule hwants
    rcases hadds.rules rule hrule with hold | hnew
    · cases hold
    · exact hnew name hwants
  rcases h with ⟨⟨q, hq, rfl⟩, hkept⟩ | hadded
  · rcases hadds.params q (hparams ▸ hq) with hold | ⟨rule, hrule, hparam⟩ | hreached
    · cases hold
    · obtain ⟨f, hf, _⟩ := hb.filled rule (hrules ▸ hrule)
      refine hwanted rule hrule ⟨f, hf, Or.inr ⟨hparam, fun hremoved => hkept ?_⟩⟩
      exact (hb.removed q.name).mpr ⟨rule, hrules ▸ hrule, f, hf, hremoved⟩
    · exact hreached
  · obtain ⟨rule, hrule, f, hf, hname⟩ := (hb.added name).mp hadded
    exact hwanted rule (hrules ▸ hrule) ⟨f, hf, Or.inl hname⟩

namespace Compiler

variable {c : Compiler} {spec : QuerySpec} {compiled : Compiled}

/-- A comparison or an assignment that is left out brings no parameter, and the one it declares is not
bound. Unless a filter strands a parameter or a single entity supplies a numbered column, the statement
mentions every parameter that is bound. -/
theorem bound_mentioned {args : Value} {bound : Bound} (hcompile : c.compile spec = .ok compiled)
    (hbind : compiled.bind args = .ok bound) :
    ∃ p subs, Plan.PlannedBy c.resolver c.options.keyWindowAlias spec p ∧
      compiled.plan.substitution compiled.schema args = .ok (subs, bound.params) ∧
      (∀ rule ∈ compiled.plan.rules, rule.action.isOmitted (args.entry rule.path) = true →
        (∃ f, rule.fill compiled.schema (args.entry rule.path) = .ok f ∧ f.added = []) ∧
          ∀ name, rule.action.param? = some name → name ∉ bound.params.names) ∧
      (¬p.LeavesBehind args →
        ∀ name ∈ bound.params.names, compiled.plan.batch.Mentions subs name) := by
  obtain ⟨_, hplan⟩ := ofSpec_of_compile hcompile
  obtain ⟨p, d, hp, hrun, hrules, hparams⟩ := Plan.ofSpec_planner hplan
  have hsound := Plan.ofSpec_sound hplan
  obtain ⟨b, hb, hsubs, hnames⟩ := hsound.bound_of_bind hbind
  refine ⟨p, b.subs, hp, hsubs, ?_, ?_⟩
  · intro rule hrule homitted
    obtain ⟨f, hf, hadded, hremoved⟩ := HoleRule.fill_omitted (s := compiled.schema) homitted
    refine ⟨⟨f, hf, hadded⟩, ?_⟩
    intro name hparam
    rw [hnames]
    exact hsound.not_bound_of_takenBack hb ⟨rule, hrule, f, hf, hparam, hremoved name hparam⟩
  · intro hclean name hname
    exact Plan.mentions_of_bound hrun hrules hparams hb hclean ((hnames name).mp hname)

/-- A page of people by the name of a pet and from a number on, if these are given. -/
def soughtPage : SpecDeclaration where
  operation := .select
  table := some "Person"
  arguments := [
    ⟨"pet", .shape "Called", false, { (default : Directives) with ignore := some .ifNull }⟩,
    ⟨"Id", .i32, false,
      { (default : Directives) with compare := some .gt, ignore := some .ifNull }⟩,
    ⟨"Take", .i32, false, { (default : Directives) with fetch := true }⟩]
  returns := [.many "Person"]

def soughtArguments : Value := .record [("pet", .null), ("Id", .null), ("Take", .i32 5)]

/-- The page is bound with its length alone. One comparison is left out, and no filter strands a
parameter. -/
def soughtTest (_ : Compiler) (spec : QuerySpec) (compiled : Compiled) : Bool :=
  spec.operation == .select &&
  ((compiled.bind soughtArguments).toOption.any fun bound => bound.params.names == ["Take"]) &&
  (compiled.plan.rules.any fun rule =>
    rule.action.isOmitted (soughtArguments.entry rule.path)) &&
  (Arguments.classify spec.operation spec.arguments.children).toOption.any fun arguments =>
    arguments.filters.all fun argument =>
      !argument.strands soughtArguments argument.label.directives.ignore

/-- The page mentions all that is bound for it. -/
theorem bound_mentioned_sought :
    ∃ schema spec compiled bound subs, Schema.build kennelDeclarations = .ok schema ∧
      soughtPage.build kennelShapes = .ok spec ∧
      (⟨schema, default, .exact⟩ : Compiler).compile spec = .ok compiled ∧
      compiled.bind soughtArguments = .ok bound ∧
      compiled.plan.substitution compiled.schema soughtArguments = .ok (subs, bound.params) ∧
      (∃ rule ∈ compiled.plan.rules,
        rule.action.isOmitted (soughtArguments.entry rule.path) = true ∧
          ∃ f, rule.fill compiled.schema (soughtArguments.entry rule.path) = .ok f ∧ f.added = []) ∧
      bound.params.names = ["Take"] ∧ compiled.plan.batch.Mentions subs "Take" := by
  obtain ⟨schema, spec, compiled, hschema, hspec, hcompile, htest⟩ :
      ∃ schema spec compiled, Schema.build kennelDeclarations = .ok schema ∧
        soughtPage.build kennelShapes = .ok spec ∧
        (⟨schema, default, .exact⟩ : Compiler).compile spec = .ok compiled ∧
        soughtTest ⟨schema, default, .exact⟩ spec compiled = true :=
    exists_compiled (by decide +kernel)
  simp only [soughtTest, Bool.and_eq_true, beq_iff_eq] at htest
  obtain ⟨⟨⟨hselect, hbinds⟩, hleftOut⟩, hclassifies⟩ := htest
  obtain ⟨bound, hbind, hnames⟩ := exists_ok_of_any hbinds
  rw [beq_iff_eq] at hnames
  obtain ⟨rule, hrule, homitted⟩ := List.any_eq_true.mp hleftOut
  obtain ⟨arguments, harguments, hclean⟩ := exists_ok_of_any hclassifies
  obtain ⟨p, subs, hp, hsubs, hfilled, hmentions⟩ := bound_mentioned hcompile hbind
  have hkept : ¬p.LeavesBehind soughtArguments := by
    rintro (⟨_, argument, hargument, hstrands⟩ | ⟨hupdate, _⟩)
    · have hsame : p.arguments = arguments := by
        have hclassify := hp.arguments
        rw [harguments] at hclassify
        exact (Except.ok.inj hclassify).symm
      have hkeeps := List.all_eq_true.mp hclean argument (hsame ▸ hargument)
      rw [Bool.not_eq_true'] at hkeeps
      exact hstrands hkeeps
    · rw [hp.operation, hselect] at hupdate
      cases hupdate
  have htake : "Take" ∈ bound.params.names := by
    rw [hnames]
    exact List.mem_singleton.mpr rfl
  exact ⟨schema, spec, compiled, bound, subs, hschema, hspec, hcompile, hbind, hsubs,
    ⟨rule, hrule, homitted, (hfilled rule hrule homitted).1⟩, hnames, hmentions hkept "Take" htake⟩

end Compiler

/-- The leaf is no such parameter, nor a hole that is bound to a fragment with any. -/
def Sql.Leaf.lacks (subs : Substitution) (name : String) : Leaf → Bool
  | .param other => other != name
  | .hole _ id => (subs.find? id).all fun fragment => fragment.leaves.isEmpty
  | .broken _ => true

theorem Sql.Leaf.not_mentions_of_lacks {subs : Substitution} {name : String} {l : Leaf}
    (h : l.lacks subs name = true) : ¬l.Mentions subs name := by
  intro hmentions
  cases hmentions with
  | param => simp [lacks] at h
  | hole hfound hleaf _ =>
    rw [lacks, hfound, Option.all_some, List.isEmpty_iff] at h
    rw [h] at hleaf
    cases hleaf

/-- The declared specification is bound with a parameter that its statement mentions nowhere. -/
def SpecDeclaration.Strays (declaration : SpecDeclaration) (declarations : List TableDeclaration)
    (shapes : Shapes) (args : Value) (name : String) : Prop :=
  ∃ schema spec compiled bound subs, Schema.build declarations = .ok schema ∧
    declaration.build shapes = .ok spec ∧
    (⟨schema, default, .exact⟩ : Compiler).compile spec = .ok compiled ∧
    compiled.bind args = .ok bound ∧
    compiled.plan.substitution compiled.schema args = .ok (subs, bound.params) ∧
    name ∈ bound.params.names ∧ ¬compiled.plan.batch.Mentions subs name

def strayTest (args : Value) (name : String) (_ : Compiler) (_ : QuerySpec) (compiled : Compiled) :
    Bool :=
  ((compiled.bind args).toOption.any fun bound => bound.params.names.contains name) &&
  (compiled.plan.substitution compiled.schema args).toOption.any fun (subs, _) =>
    compiled.plan.batch.leaves.all (Leaf.lacks subs name)

/-- The test is evaluated on what is compiled. -/
theorem SpecDeclaration.strays_of_test {declaration : SpecDeclaration}
    {declarations : List TableDeclaration} {shapes : Shapes} {args : Value} {name : String}
    (h : ((Schema.build declarations).toOption.any fun schema =>
      (declaration.build shapes).toOption.any fun spec =>
        ((⟨schema, default, .exact⟩ : Compiler).compile spec).toOption.any
          (strayTest args name ⟨schema, default, .exact⟩ spec)) = true) :
    declaration.Strays declarations shapes args name := by
  obtain ⟨schema, spec, compiled, hschema, hspec, hcompile, htest⟩ := Compiler.exists_compiled h
  rw [strayTest, Bool.and_eq_true] at htest
  obtain ⟨bound, hbind, hname⟩ := exists_ok_of_any htest.1
  obtain ⟨⟨subs, params⟩, hfound, hleaves⟩ := exists_ok_of_any htest.2
  obtain ⟨others, hsubs⟩ := Plan.substitution_of_bind hbind
  obtain rfl : others = subs := by
    rw [hsubs] at hfound
    exact congrArg Prod.fst (Except.ok.inj hfound)
  refine ⟨schema, spec, compiled, bound, others, hschema, hspec, hcompile, hbind, hsubs,
    List.contains_iff_mem.mp hname, ?_⟩
  rintro ⟨l, hl, hmentions⟩
  exact Leaf.not_mentions_of_lacks (List.all_eq_true.mp hleaves l hl) hmentions

/-- People by a pet with a later number, if a pet is given. -/
def laterPets : SpecDeclaration where
  operation := .select
  table := some "Person"
  arguments := [
    ⟨"pet", .shape "Later", false, { (default : Directives) with ignore := some .ifNull }⟩]
  returns := [.many "Person"]

def laterShapes : Shapes := .ofList [
  ⟨"Person", none, [⟨"Id", .i32, false, default⟩]⟩,
  ⟨"Later", some "Pet", [⟨"Id", .i32, false, { (default : Directives) with compare := some .gt }⟩]⟩]

/-- People by the name of a pet that refers to them, if the name is not empty. -/
def namedPets : SpecDeclaration where
  operation := .select
  table := some "Person"
  arguments := [
    ⟨"Name", .text, false,
      { (default : Directives) with
        via := some ⟨"Person.Id -> Pet.PersonId", none⟩, ignore := some .ifNullOrEmpty }⟩]
  returns := [.many "Person"]

/-- People with a number besides their key, that the database assigns. -/
def numberedDeclarations : List TableDeclaration := [
  ⟨"Person", .table, [⟨"Id", .integer 4, false, true, false⟩,
    ⟨"Number", .integer 4, false, false, true⟩, ⟨"Name", .text, false, false, false⟩], []⟩]

def numberedShapes : Shapes := .ofList [
  ⟨"Person", none, [⟨"Id", .i32, false, default⟩, ⟨"Number", .i32, false, default⟩,
    ⟨"Name", .text, false, default⟩]⟩]

def numberedUpdate : SpecDeclaration where
  operation := .update
  table := some "Person"
  arguments := [⟨"person", .shape "Person", false, default⟩]
  returns := []

/-- A condition that is dropped leaves the parameter of an inequality below it behind, or that of an empty
text at the end of a path, and an update the number that it does not assign. -/
theorem strays_of_guard_and_number :
    laterPets.Strays Compiler.kennelDeclarations laterShapes (.record [("pet", .null)]) "pet_Id" ∧
      namedPets.Strays Compiler.kennelDeclarations laterShapes (.record [("Name", .text "")]) "Name" ∧
      numberedUpdate.Strays numberedDeclarations numberedShapes
        (.record [("person", .record [("Id", .i32 1), ("Number", .i32 2), ("Name", .text "Ann")])])
        "person_Number" := by
  refine ⟨?_, ?_, ?_⟩
  · exact SpecDeclaration.strays_of_test (by decide +kernel)
  · exact SpecDeclaration.strays_of_test (by decide +kernel)
  · exact SpecDeclaration.strays_of_test (by decide +kernel)

end ShapeSql
