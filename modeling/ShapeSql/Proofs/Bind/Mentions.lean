import Mathlib.Data.List.Pairwise
import ShapeSql.Proofs.Bind.Safety

namespace ShapeSql

open Sql

/-- A rule takes the declared parameter of this name back at these arguments. -/
def Compiled.TakesBack (c : Compiled) (args : Value) (name : String) : Prop :=
  Filled c.schema args c.plan.rules fun rule f =>
    rule.action.param? = some name ∧ name ∈ f.removed

theorem Layered.leaves_filledBy {rules : List HoleRule} (h : Layered rules) :
    ∀ rule ∈ rules, ∀ l ∈ rule.action.leaves, l.FilledBy rules := by
  induction h with
  | nil => exact nofun
  | @snoc rules rule _ _ hleaves ih =>
    intro other hother l hl
    rcases List.mem_append.mp hother with hold | hnew
    · exact (ih other hold l hl).append
    · rw [List.mem_singleton.mp hnew] at hl
      exact (hleaves l hl).append

/-- Below a hole that a rule fills, a parameter occurs that some rule brings, or that is the declared
one of a rule that keeps it. -/
theorem Binding.Binds.mentions_below {s : Schema} {args : Value} {rules : List HoleRule} {b : Binding}
    (hb : b.Binds s args rules) (hrules : Layered rules) (hfits : ∀ rule ∈ rules, rule.action.Fits)
    {l : Leaf} {name : String} (h : l.Mentions b.subs name) (hl : l.FilledBy rules) :
    name ∈ b.added.names ∨ Filled s args rules fun rule f =>
      rule.action.param? = some name ∧ f.removed = [] := by
  -- The induction follows the expansion: each fragment has holes of rules again, or a parameter.
  induction h with
  | param => exact hl.elim
  | @hole place id fragment leaf hfound hleaf hmentions ih =>
    obtain ⟨rule, hrule, f, hf, _, rfl⟩ := hb.bound id fragment hfound
    rcases (HoleRule.fill_serves (hfits rule hrule) hf).leaves leaf hleaf with
      hkept | ⟨other, rfl, hparam⟩
    · exact ih (hrules.leaves_filledBy rule hrule leaf hkept)
    · cases hmentions
      rcases hparam with hadded | hdeclared
      · exact Or.inl ((hb.added name).mpr ⟨rule, hrule, f, hf, hadded⟩)
      · exact Or.inr ⟨rule, hrule, f, hf, hdeclared⟩

namespace Plan

variable {s : Schema} {args : Value} {plan : Plan} {b : Binding}

/-- A parameter that the batch mentions is brought by a rule, declared without any rule to compare
with it, or the declared one of a rule that keeps it. -/
theorem Sound.mentions_cases (hplan : plan.Sound) (hb : b.Binds s args plan.rules) {name : String}
    (h : plan.batch.Mentions b.subs name) :
    name ∈ b.added.names ∨
      (∃ p ∈ plan.params, p.name = name ∧ (p.transform = .required ∨ plan.rules = [])) ∨
      Filled s args plan.rules fun rule f => rule.action.param? = some name ∧ f.removed = [] := by
  obtain ⟨l, hl, hmentions⟩ := h
  have hsettled := hplan.settled l hl
  cases l with
  | param other =>
    cases hmentions
    exact Or.inr (Or.inl hsettled)
  | broken fault => exact hsettled.elim
  | hole place id =>
    rcases hb.mentions_below hplan.layered hplan.fits hmentions hsettled with hadded | hkept
    · exact Or.inl hadded
    · exact Or.inr (Or.inr hkept)

/-- What a rule takes back is its declared parameter, if it is declared at all. -/
theorem Sound.takenBack_of_removed (hplan : plan.Sound) (hb : b.Binds s args plan.rules)
    {name : String} (hremoved : name ∈ b.removed) (hdeclared : ∃ p ∈ plan.params, p.name = name) :
    Filled s args plan.rules fun rule f => rule.action.param? = some name ∧ name ∈ f.removed := by
  obtain ⟨rule, hrule, f, hf, hname⟩ := (hb.removed name).mp hremoved
  refine ⟨rule, hrule, f, hf, ?_, hname⟩
  rcases (HoleRule.fill_serves (hplan.fits rule hrule) hf).removed name hname with hparam | howns
  · exact hparam
  · obtain ⟨p, hp, hsame⟩ := hdeclared
    exact absurd hsame (hplan.aside rule hrule name howns p hp)

/-- A parameter that the batch mentions is declared, unless a rule brings it. -/
theorem Sound.declared_of_mentions (hplan : plan.Sound) (hb : b.Binds s args plan.rules)
    {name : String} (h : plan.batch.Mentions b.subs name) :
    name ∈ b.added.names ∨ ∃ p ∈ plan.params, p.name = name := by
  rcases hplan.mentions_cases hb h with hadded | ⟨p, hp, hname, _⟩ | ⟨rule, hrule, _, _, hparam, _⟩
  · exact Or.inl hadded
  · exact Or.inr ⟨p, hp, hname⟩
  · obtain ⟨p, hp, hname, _⟩ := hplan.declared rule hrule name hparam
    exact Or.inr ⟨p, hp, hname⟩

/-- Two marked rules of one path are the same rule, where no path is marked twice. -/
theorem eq_of_marks_nodup {rules : List HoleRule} (h : ((marks rules).map Prod.snd).Nodup)
    {rule other : HoleRule} (hrule : rule ∈ rules) (hother : other ∈ rules)
    (hmarked : rule.action.isMarked = true) (hotherMarked : other.action.isMarked = true)
    (hpath : rule.path = other.path) : rule = other := by
  by_contra hne
  rw [marks, List.map_flatMap] at h
  have hmem : ∀ r : HoleRule, r.action.isMarked = true →
      r.path ∈ (r.action.mark r.path).map Prod.snd := by
    intro r hr
    rw [Action.mark, if_pos hr]
    exact List.mem_singleton.mpr rfl
  have hsymm : Std.Symm (Function.onFun List.Disjoint fun r : HoleRule =>
      (r.action.mark r.path).map Prod.snd) := ⟨fun _ _ hd => List.disjoint_symm hd⟩
  have hdisjoint := (List.nodup_flatMap.mp h).2.forall hrule hother hne
  exact hdisjoint (hmem rule hmarked) (hpath ▸ hmem other hotherMarked)

theorem Sound.eq_of_name (hplan : plan.Sound) {p q : Param} (hp : p ∈ plan.params)
    (hq : q ∈ plan.params) (h : p.name = q.name) : p = q :=
  List.inj_on_of_nodup_map hplan.distinct hp hq h

/-- Where no path is marked twice, what a rule takes back is not mentioned. -/
theorem Sound.not_takenBack (hplan : plan.Sound) (hb : b.Binds s args plan.rules)
    (hmarks : ((marks plan.rules).map Prod.snd).Nodup) {name : String}
    (h : plan.batch.Mentions b.subs name) :
    ¬Filled s args plan.rules fun rule f => rule.action.param? = some name ∧ name ∈ f.removed := by
  rintro ⟨rule, hrule, f, hf, hparam, hremoved⟩
  obtain ⟨p, hp, hname, hpath, htransform⟩ := hplan.declared rule hrule name hparam
  have hmarked : rule.action.isMarked = true := by
    rw [Action.isMarked, hparam]
    rfl
  rcases hplan.mentions_cases hb h with hadded | ⟨q, hq, hqname, hfree⟩ |
    ⟨other, hother, g, hg, hotherParam, hkept⟩
  · exact hb.added_aside hplan hadded p hp hname
  · have hsame := hplan.eq_of_name hp hq (hname.trans hqname.symm)
    rcases hfree with hrequired | hnone
    · exact htransform (hsame ▸ hrequired)
    · rw [hnone] at hrule
      cases hrule
  · obtain ⟨q, hq, hqname, hqpath, _⟩ := hplan.declared other hother name hotherParam
    have hsame := hplan.eq_of_name hp hq (hname.trans hqname.symm)
    have hpaths : rule.path = other.path := by rw [← hpath, ← hqpath, hsame]
    have hotherMarked : other.action.isMarked = true := by
      rw [Action.isMarked, hotherParam]
      rfl
    have heq := eq_of_marks_nodup hmarks hrule hother hmarked hotherMarked hpaths
    rw [heq, hg] at hf
    cases hf
    rw [hkept] at hremoved
    cases hremoved

end Plan

/-- A plan that is bound has a substitution, with the parameters of the statement. -/
theorem Plan.substitution_of_bind {plan : Plan} {s : Schema} {args : Value} {bound : Bound}
    (h : plan.bind s args = .ok bound) :
    ∃ subs, plan.substitution s args = .ok (subs, bound.params) := by
  unfold Plan.bind at h
  split at h
  · cases h
  · obtain ⟨⟨subs, params⟩, hsubs, h⟩ := except_bind_ok.mp h
    obtain ⟨sql, _, h⟩ := except_bind_ok.mp h
    cases h
    exact ⟨subs, hsubs⟩

/-- A sound plan that is bound binds the declared parameters that no rule took back, and those that rules
brought. -/
theorem Plan.Sound.bound_of_bind {plan : Plan} (hplan : plan.Sound) {s : Schema} {args : Value}
    {bound : Bound} (h : plan.bind s args = .ok bound) :
    ∃ b, Binding.Binds s args plan.rules b ∧ plan.substitution s args = .ok (b.subs, bound.params) ∧
      ∀ name, name ∈ bound.params.names ↔
        ((∃ p ∈ plan.params, p.name = name) ∧ name ∉ b.removed) ∨ name ∈ b.added.names := by
  obtain ⟨subs, hsubs⟩ := Plan.substitution_of_bind h
  obtain ⟨b, declared, hb, _, hdeclared, _, rfl, hparams⟩ := Plan.binds_of_substitution hplan hsubs
  refine ⟨b, hb, hsubs, fun name => ?_⟩
  rw [hparams, Record.names, List.map_append, List.mem_append,
    ← (Binding.names_declared hdeclared).2]
  rfl

/-- What a rule takes back is left out of the declared parameters, and no rule brings it instead. -/
theorem Plan.Sound.not_bound_of_takenBack {plan : Plan} (hplan : plan.Sound) {s : Schema} {args : Value}
    {b : Binding} (hb : b.Binds s args plan.rules) {name : String}
    (h : Filled s args plan.rules fun rule f => rule.action.param? = some name ∧ name ∈ f.removed) :
    ¬(((∃ p ∈ plan.params, p.name = name) ∧ name ∉ b.removed) ∨ name ∈ b.added.names) := by
  obtain ⟨rule, hrule, f, hf, hparam, hremoved⟩ := h
  obtain ⟨p, hp, hname, _⟩ := hplan.declared rule hrule name hparam
  rintro (⟨_, hkept⟩ | hadded)
  · exact hkept ((hb.removed name).mpr ⟨rule, hrule, f, hf, hremoved⟩)
  · exact hb.added_aside hplan hadded p hp hname

namespace Compiler

variable {c : Compiler} {spec : QuerySpec} {compiled : Compiled}

/-- A parameter that the statement mentions once its holes are filled is bound exactly if no rule
takes it back. Where the fields of the arguments have paths of their own, all of them are bound. -/
theorem mentioned_bound {args : Value} {bound : Bound} (hcompile : c.compile spec = .ok compiled)
    (hbind : compiled.bind args = .ok bound) :
    ∃ subs, compiled.plan.substitution compiled.schema args = .ok (subs, bound.params) ∧
      (∀ name, compiled.plan.batch.Mentions subs name →
        (name ∈ bound.params.names ↔ ¬compiled.TakesBack args name)) ∧
      ((spec.arguments.preorder.map Field.path).Nodup →
        ∀ name, compiled.plan.batch.Mentions subs name → name ∈ bound.params.names) := by
  obtain ⟨_, hplan⟩ := ofSpec_of_compile hcompile
  have hsound := Plan.ofSpec_sound hplan
  obtain ⟨b, hb, hsubs, hnames⟩ := hsound.bound_of_bind hbind
  have hexact : ∀ name, compiled.plan.batch.Mentions b.subs name →
      (name ∈ bound.params.names ↔ ¬compiled.TakesBack args name) := by
    intro name hmentions
    rw [hnames]
    constructor
    · exact fun hbound htaken => hsound.not_bound_of_takenBack hb htaken hbound
    · intro hnot
      rcases hsound.declared_of_mentions hb hmentions with hadded | hdecl
      · exact Or.inr hadded
      · left
        refine ⟨hdecl, ?_⟩
        intro hremoved
        exact hnot (hsound.takenBack_of_removed hb hremoved hdecl)
  refine ⟨b.subs, hsubs, hexact, ?_⟩
  intro hdistinct name hmentions
  have hmarks := Plan.ofSpec_marks_nodup hplan hdistinct
  exact (hexact name hmentions).mpr (hsound.not_takenBack hb hmarks hmentions)

end Compiler

/-- The renaming of people binds the two parameters that it mentions. -/
theorem mentioned_bound_renamePeople :
    ∃ (c : Compiler) (compiled : Compiled) (bound : Bound), c.compile renamePeople = .ok compiled ∧
      compiled.bind renameArguments = .ok bound ∧
      (renamePeople.arguments.preorder.map Field.path).Nodup ∧
      ∃ subs, compiled.plan.substitution compiled.schema renameArguments =
          .ok (subs, bound.params) ∧
        (∀ name, compiled.plan.batch.Mentions subs name →
          (name ∈ bound.params.names ↔ ¬compiled.TakesBack renameArguments name)) ∧
        ((renamePeople.arguments.preorder.map Field.path).Nodup →
          ∀ name, compiled.plan.batch.Mentions subs name → name ∈ bound.params.names) := by
  obtain ⟨compiled, hcompile⟩ : ∃ compiled : Compiled,
      (⟨personSchema, default, .exact⟩ : Compiler).compile renamePeople = .ok compiled := ⟨_, rfl⟩
  obtain ⟨bound, hbind⟩ : ∃ bound : Bound, compiled.bind renameArguments = .ok bound := by
    cases hcompile
    exact ⟨_, rfl⟩
  have hexact := Compiler.mentioned_bound hcompile hbind
  exact ⟨_, compiled, bound, hcompile, hbind, by decide, hexact⟩

/-- People with two names. -/
def namedDeclaration : TableDeclaration where
  name := "Person"
  kind := .table
  columns := [⟨"Id", .integer 4, false, true, false⟩, ⟨"First", .text, false, false, false⟩,
    ⟨"Last", .text, false, false, false⟩]
  foreignKeys := []

/-- The schema of those people alone. -/
def namedSchema : Schema where
  tables := [{
    id := ⟨0⟩
    name := "Person"
    kind := .table
    columns := [⟨⟨⟨0⟩, 0⟩, "Id", .integer 4, false, true, false⟩,
      ⟨⟨⟨0⟩, 1⟩, "First", .text, false, false, false⟩,
      ⟨⟨⟨0⟩, 2⟩, "Last", .text, false, false, false⟩]
    primaryKey := [⟨⟨0⟩, 0⟩]
    foreignKeys := [] }]

/-- A term that is compared with both names, with the first one only if there is a term. -/
def termFields : List FieldDef := [
  ⟨"Term", .text, false, ⟨some "First", some .ifNullOrEmpty, false, none, none, none, none, false,
    false, none, false, false⟩⟩,
  ⟨"Term", .text, false, ⟨some "Last", none, false, none, none, none, none, false, false, none,
    false, false⟩⟩]

/-- A person's number. -/
def idField : FieldDef := ⟨"Id", .i32, false, default⟩

def termDeclaration : SpecDeclaration where
  operation := .select
  table := some "Person"
  arguments := [⟨"filter", .shape "Search", false, default⟩]
  returns := [.many "Person"]

/-- The search that is declared, with its shapes unfolded. -/
def termSearch : QuerySpec where
  operation := .select
  table := some "Person"
  arguments := .node FieldTree.argumentRoot [
    .node { FieldTree.place ⟨"filter", .shape "Search", false, default⟩ ⟨["filter"]⟩ none with
      table := some "Person" }
      (termFields.map fun d =>
        .leaf (FieldTree.place d ⟨["filter", "Term"]⟩ (some ("Search", "Term"))))]
  output := some (.node (FieldTree.place ⟨"", .list (.shape "Person"), false, default⟩ .root none) [
    .leaf (FieldTree.place idField ⟨["Id"]⟩ (some ("Person", "Id")))])
  outputKind := .many

/-- No term. -/
def emptyTerm : Value := .record [("filter", .record [("Term", .text "")])]

/-- The first comparison is dropped and takes the shared parameter back, the second mentions it. -/
theorem mentioned_unbound_emptyTerm :
    ∃ (compiled : Compiled) (bound : Bound) (subs : Substitution),
      Schema.build [namedDeclaration] = .ok namedSchema ∧
      termDeclaration.build
        (.ofList [⟨"Search", some "Person", termFields⟩, ⟨"Person", none, [idField]⟩]) =
          .ok termSearch ∧
      (⟨namedSchema, default, .exact⟩ : Compiler).compile termSearch = .ok compiled ∧
      compiled.bind emptyTerm = .ok bound ∧
      compiled.plan.substitution compiled.schema emptyTerm = .ok (subs, bound.params) ∧
      compiled.plan.batch.Mentions subs "filter_Term" ∧
      "filter_Term" ∉ bound.params.names := by
  have hschema : Schema.build [namedDeclaration] = .ok namedSchema := rfl
  have hspec : termDeclaration.build
      (.ofList [⟨"Search", some "Person", termFields⟩, ⟨"Person", none, [idField]⟩]) =
        .ok termSearch := rfl
  refine ⟨_, _, _, hschema, hspec, rfl, rfl, rfl, ?_, List.not_mem_nil⟩
  exact ⟨.hole .expr ⟨1⟩, by decide, .hole rfl (by decide) .param⟩

end ShapeSql
