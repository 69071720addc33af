import ShapeSql.Proofs.Compiler
import ShapeSql.Proofs.Relation.Junctions

namespace ShapeSql

open Sql

section Upheld

variable {ε α β σ : Type}

/-- Whatever the first computation succeeds with, so does the second one. -/
def Upheld (x y : Except ε α) : Prop := ∀ a, x = .ok a → y = .ok a

/-- Whatever state it starts in, what the first computation succeeds with, so does the second one. -/
def UpheldFrom (m n : StateT σ (Except ε) α) : Prop := ∀ s, Upheld (m.run s) (n.run s)

namespace Upheld

theorem refl (x : Except ε α) : Upheld x x := fun _ h => h

theorem error (e : ε) (y : Except ε α) : Upheld (.error e) y := nofun

theorem bind {x y : Except ε α} {f g : α → Except ε β} (h : Upheld x y)
    (hf : ∀ a, Upheld (f a) (g a)) : Upheld (x >>= f) (y >>= g) := by
  intro b hb
  obtain ⟨a, hx, hfa⟩ := except_bind_ok.mp hb
  exact except_bind_ok.mpr ⟨a, h a hx, hf a b hfa⟩

end Upheld

namespace UpheldFrom

theorem refl (m : StateT σ (Except ε) α) : UpheldFrom m m := fun s => .refl (m.run s)

theorem throw (e : ε) (n : StateT σ (Except ε) α) : UpheldFrom (throw e) n := by
  intro s r h
  cases h

theorem throw_bind (e : ε) (f : α → StateT σ (Except ε) β) (n : StateT σ (Except ε) β) :
    UpheldFrom (MonadExcept.throw e >>= f) n := by
  intro s r h
  cases h

theorem lift {x y : Except ε α} (h : Upheld x y) :
    UpheldFrom (liftM x : StateT σ (Except ε) α) (liftM y) := by
  intro s ⟨a, s'⟩ hrun
  obtain ⟨hx, rfl⟩ := run_lift_ok.mp hrun
  exact run_lift_ok.mpr ⟨h a hx, rfl⟩

theorem bind {m n : StateT σ (Except ε) α} {f g : α → StateT σ (Except ε) β} (h : UpheldFrom m n)
    (hf : ∀ a, UpheldFrom (f a) (g a)) : UpheldFrom (m >>= f) (n >>= g) := by
  intro s ⟨b, s'⟩ hrun
  obtain ⟨a, between, hm, hfa⟩ := run_bind_ok.mp hrun
  exact run_bind_ok.mpr ⟨a, between, h s _ hm, hf a between _ hfa⟩

theorem ite {c : Prop} [Decidable c] {m n m' n' : StateT σ (Except ε) α} (hm : UpheldFrom m m')
    (hn : UpheldFrom n n') : UpheldFrom (if c then m else n) (if c then m' else n') := by
  split
  · exact hm
  · exact hn

theorem mapM {f g : α → StateT σ (Except ε) β} (h : ∀ a, UpheldFrom (f a) (g a)) (items : List α) :
    UpheldFrom (items.mapM f) (items.mapM g) := by
  induction items with
  | nil => exact .refl _
  | cons a items ih =>
    rw [List.mapM_cons, List.mapM_cons]
    exact (h a).bind fun _ => ih.bind fun _ => .refl _

end UpheldFrom

end Upheld

theorem Link.infer_upheld (s : Schema) (parent child : Table) (field : String) (many : Bool)
    (policy : JunctionPolicy) :
    Upheld (infer s parent child field many policy) (infer s parent child field many .warn) := by
  have hthrough : Upheld (throughJunction s parent child policy) (throughJunction s parent child .warn) := by
    unfold throughJunction
    rcases narrowest (candidates s parent child) with _ | ⟨first, _ | ⟨second, rest⟩⟩
    · exact .refl _
    · cases policy with
      | warn | error => exact .refl _
    · cases policy with
      | warn => exact .refl _
      | error => exact .error _ _
  unfold infer
  dsimp only
  split
  · exact .refl _
  · exact hthrough

namespace Resolver

/-- The resolver that chooses where a link is ambiguous. -/
def lenient (r : Resolver) : Resolver := { r with policy := .warn }

variable (r : Resolver)

theorem link_upheld (parent child : Table) (field : String) (many : Bool) (path : Path) :
    Upheld (r.link parent child field many path) (r.lenient.link parent child field many path) :=
  (Link.infer_upheld r.schema parent child field many r.policy).bind fun _ => .refl _

/-- A via-relation spells out its links, so none of them is ambiguous. -/
theorem legs_lenient (missing : Expected → Error) (source : Table) (left : Option String)
    (hops : List Hop) : r.lenient.legs missing source left hops = r.legs missing source left hops := by
  induction hops generalizing source left with
  | nil => rfl
  | cons hop rest ih =>
    simp only [legs, ih]
    rfl

theorem via_lenient (start : Table) (v : Via) (path : Path) :
    r.lenient.via start v path = r.via start v path := by
  unfold via
  simp only [legs_lenient]
  rfl

theorem stepsTo_upheld (table : Table) (field : Field) :
    Upheld (r.stepsTo table field) (r.lenient.stepsTo table field) := by
  unfold stepsTo
  split
  · rw [via_lenient]
    exact .refl _
  · refine .bind (.refl _) fun found => ?_
    cases found with
    | none => exact .refl _
    | some target => exact .bind (r.link_upheld _ _ _ _ _) fun _ => .refl _

mutual

theorem resolveField_upheld : ∀ (t : FieldTree) (table : Table) (aliasName : String)
    (columns : List ProjectedColumn), UpheldFrom (r.resolveField table aliasName columns t)
      (r.lenient.resolveField table aliasName columns t)
  | .node field kids, table, aliasName, columns => by
    rw [resolveField, resolveField]
    split
    · exact .refl _
    · split
      · exact .refl _
      · split
        · exact .refl _
        · refine .bind (.lift (r.stepsTo_upheld table field)) fun steps => .bind (.refl _) fun places => ?_
          exact .bind (resolveFields_upheld kids _ _ _) fun _ => .refl _

theorem resolveFields_upheld : ∀ (ts : List FieldTree) (table : Table) (aliasName : String)
    (columns : List ProjectedColumn), UpheldFrom (r.resolveFields table aliasName columns ts)
      (r.lenient.resolveFields table aliasName columns ts)
  | [], table, aliasName, columns => by
    rw [resolveFields, resolveFields]
    exact .refl _
  | t :: ts, table, aliasName, columns => by
    rw [resolveFields, resolveFields]
    exact .bind (resolveField_upheld t _ _ _) fun _ =>
      .bind (resolveFields_upheld ts _ _ _) fun _ => .refl _

end

theorem resolve_upheld (table : Table) (output : FieldTree) :
    Upheld (r.resolve table output) (r.lenient.resolve table output) :=
  .bind (r.resolveFields_upheld _ _ _ _ _) fun _ => .refl _

theorem resolveSteps_upheld (steps : List String) (table : Table) (aliasName : String) (walked : Path) :
    UpheldFrom (r.resolveSteps table aliasName walked steps)
      (r.lenient.resolveSteps table aliasName walked steps) := by
  induction steps generalizing table aliasName walked with
  | nil => exact .refl _
  | cons step rest ih =>
    rw [resolveSteps, resolveSteps]
    dsimp only
    rw [show r.lenient.findTable step = r.findTable step from rfl]
    cases r.findTable step with
    | none => exact .throw _ _
    | some target =>
      exact .bind (.lift (r.link_upheld _ _ _ _ _)) fun _ => .bind (.refl _) fun _ =>
        .bind (ih _ _ _) fun _ => .refl _

theorem resolvePath_upheld (table : Table) (path : Path) :
    Upheld (r.resolvePath table path) (r.lenient.resolvePath table path) :=
  .bind (r.resolveSteps_upheld _ _ _ _ _) fun _ => .refl _

end Resolver

namespace Planner

/-- The planner that chooses where a link is ambiguous. -/
def lenient (p : Planner) : Planner := { p with resolver := p.resolver.lenient }

variable (p : Planner)

theorem lenient_table : p.lenient.table = p.table := rfl

theorem lenient_operation : p.lenient.operation = p.operation := rfl

theorem lenient_output : p.lenient.output = p.output := rfl

theorem lenient_arguments : p.lenient.arguments = p.arguments := rfl

theorem lenient_entity : p.lenient.entity = p.entity := rfl

theorem lenient_returnsRows : p.lenient.returnsRows = p.returnsRows := rfl

theorem lenient_writeTable : p.lenient.writeTable = p.writeTable := rfl

theorem lenient_removeStale : p.lenient.removeStale = p.removeStale := rfl

section Filters

theorem filterLink_upheld (scope : Scope) (target : Table) (field : Field) :
    Upheld (p.filterLink scope target field) (p.lenient.filterLink scope target field) :=
  p.resolver.link_upheld _ _ _ _ _

theorem viaExists_lenient (scope : Scope) (v : Via) (field : Field) :
    p.lenient.viaExists scope v field = p.viaExists scope v field := by
  unfold viaExists
  rw [show p.lenient.resolver.via scope.table v field.path = p.resolver.via scope.table v field.path from
    p.resolver.via_lenient _ _ _]
  rfl

mutual

theorem fieldFilter_upheld : ∀ (t : FieldTree) (scope : Scope) (ignore : Option Ignore),
    UpheldFrom (p.fieldFilter scope ignore t) (p.lenient.fieldFilter scope ignore t)
  | .node field kids, scope, ignore => by
    rw [fieldFilter, fieldFilter]
    split
    · rw [viaExists_lenient]
      exact .refl _
    · split
      · exact .refl _
      · split
        · exact .refl _
        · split
          · exact .refl _
          · refine .bind (.refl _) fun other => ?_
            cases other with
            | none => exact .bind (nestedFilters_upheld kids _) fun _ => .refl _
            | some target =>
              exact .bind (.lift (p.filterLink_upheld _ _ _)) fun _ => .bind (.refl _) fun _ =>
                .bind (nestedFilters_upheld kids _) fun _ => .refl _

theorem nestedFilters_upheld : ∀ (ts : List FieldTree) (scope : Scope),
    UpheldFrom (p.nestedFilters scope ts) (p.lenient.nestedFilters scope ts)
  | [], scope => by
    rw [nestedFilters, nestedFilters]
    exact .refl _
  | t :: ts, scope => by
    rw [nestedFilters, nestedFilters]
    split
    · exact .bind (fieldFilter_upheld t _ _) fun _ => .bind (nestedFilters_upheld ts _) fun _ => .refl _
    · exact nestedFilters_upheld ts scope

end

theorem joinTarget_upheld (relations : Relations) (join path : Path) :
    Upheld (p.joinTarget relations join path) (p.lenient.joinTarget relations join path) := by
  unfold joinTarget
  cases relations.find? join with
  | some found => exact .refl _
  | none => exact .bind (p.resolver.resolvePath_upheld _ _) fun _ => .refl _

theorem rootFilter_upheld (argument : FieldTree) :
    UpheldFrom (p.rootFilter argument) (p.lenient.rootFilter argument) := by
  unfold rootFilter
  split
  · exact .refl _
  · exact p.fieldFilter_upheld argument _ _

theorem selectFilter_upheld (relations : Relations) (argument : FieldTree) :
    UpheldFrom (p.selectFilter relations argument) (p.lenient.selectFilter relations argument) := by
  unfold selectFilter
  split
  · exact .bind (p.fieldFilter_upheld argument _ _) fun _ => .refl _
  · exact .bind (.lift (p.joinTarget_upheld _ _ _)) fun _ =>
      .bind (p.fieldFilter_upheld argument _ _) fun _ => .refl _

theorem selectFilters_upheld (relations : Relations) (arguments : List FieldTree) :
    UpheldFrom (p.selectFilters relations arguments) (p.lenient.selectFilters relations arguments) := by
  induction arguments generalizing relations with
  | nil => exact .refl _
  | cons argument rest ih =>
    exact .bind (p.selectFilter_upheld _ _) fun _ => .bind (ih _) fun _ => .refl _

end Filters

theorem outputRelations_upheld : Upheld p.outputRelations p.lenient.outputRelations := by
  unfold outputRelations
  rw [lenient_output]
  cases p.output with
  | none => exact .refl _
  | some output => exact p.resolver.resolve_upheld _ _

/-- Orderings are planned over relations that are resolved already. -/
theorem orderItems_lenient (relations : Relations) (fields : List Field) :
    p.lenient.orderItems relations fields = p.orderItems relations fields := by
  induction fields with
  | nil => rfl
  | cons field rest ih =>
    simp only [orderItems, ih]
    rfl

theorem select_upheld : UpheldFrom p.select p.lenient.select := by
  refine .bind (.lift p.outputRelations_upheld) fun _ => .bind (p.selectFilters_upheld _ _) fun _ => ?_
  dsimp only
  rw [lenient_arguments, orderItems_lenient]
  exact .refl _

section Writes

mutual

theorem writtenField_upheld : ∀ (t : FieldTree) (table : Table) (levels : List Path) (base : Path)
    (columns : List WrittenColumn), UpheldFrom (p.writtenField table levels base columns t)
      (p.lenient.writtenField table levels base columns t)
  | .node field kids, table, levels, base, columns => by
    rw [writtenField, writtenField]
    split
    · exact .refl _
    · split
      · exact .refl _
      · split
        · exact .refl _
        · split
          · exact .refl _
          · refine .bind (.refl _) fun found => ?_
            cases found with
            | none => exact writtenFields_upheld kids _ _ _ _
            | some target =>
              exact .bind (.lift (p.resolver.link_upheld _ _ _ _ _)) fun _ => .bind (.refl _) fun _ =>
                .bind (writtenFields_upheld kids _ _ _ _) fun _ => .refl _

theorem writtenFields_upheld : ∀ (ts : List FieldTree) (table : Table) (levels : List Path)
    (base : Path) (columns : List WrittenColumn),
    UpheldFrom (p.writtenFields table levels base columns ts)
      (p.lenient.writtenFields table levels base columns ts)
  | [], table, levels, base, columns => by
    rw [writtenFields, writtenFields]
    exact .refl _
  | t :: ts, table, levels, base, columns => by
    rw [writtenFields, writtenFields]
    exact .bind (writtenField_upheld t _ _ _ _) fun _ =>
      .bind (writtenFields_upheld ts _ _ _ _) fun _ => .refl _

end

mutual

theorem completed_lenient : ∀ t : WrittenTree, p.lenient.completed t = p.completed t
  | .node t kids => by
    rw [completed, completed, completedAll_lenient kids]
    rfl

theorem completedAll_lenient : ∀ ts : List WrittenTree, p.lenient.completedAll ts = p.completedAll ts
  | [] => by rw [completedAll, completedAll]
  | t :: ts => by rw [completedAll, completedAll, completed_lenient t, completedAll_lenient ts]

end

theorem writtenTree_upheld (entity : FieldTree) :
    Upheld (p.writtenTree entity) (p.lenient.writtenTree entity) := by
  refine .bind (p.writtenFields_upheld _ _ _ _ _ _) fun _ => ?_
  dsimp only
  rw [completed_lenient]
  exact .refl _

theorem returning_upheld (output : FieldTree) :
    Upheld (p.returning output) (p.lenient.returning output) :=
  .bind (p.resolver.resolve_upheld _ _) fun _ => .refl _

theorem write_upheld : UpheldFrom p.write p.lenient.write := by
  unfold write
  refine .bind (.refl _) fun entity => .bind (.lift (p.writtenTree_upheld entity)) fun tree => ?_
  simp only [lenient_operation, lenient_returnsRows, lenient_table, lenient_writeTable,
    lenient_removeStale, lenient_output]
  refine .ite (.refl _) (.ite (.throw_bind _ _ _) (.bind (.refl _) fun filled => .ite ?_ (.refl _)))
  cases p.output with
  | none => exact .refl _
  | some output => exact .bind (.lift (p.returning_upheld output)) fun _ => .refl _

theorem updateBySet_upheld : UpheldFrom p.updateBySet p.lenient.updateBySet :=
  .bind (.refl _) fun _ => .bind (.mapM p.rootFilter_upheld _) fun _ => .refl _

theorem entityColumns_lenient (entity : Path) (columns : List WrittenColumn) :
    p.lenient.entityColumns entity columns = p.entityColumns entity columns := by
  induction columns with
  | nil => rw [entityColumns, entityColumns]
  | cons written rest ih =>
    obtain ⟨column, source⟩ := written
    cases source with
    | none =>
      rw [entityColumns, entityColumns]
      exact ih
    | some source =>
      rw [entityColumns, entityColumns, ih]
      rfl

theorem updateByEntity_upheld : UpheldFrom p.updateByEntity p.lenient.updateByEntity := by
  unfold updateByEntity
  rw [lenient_entity]
  cases p.entity with
  | error e => exact .throw_bind _ _ _
  | ok entity =>
    refine .bind (.refl _) fun entity => .bind (.lift (p.writtenTree_upheld entity)) fun _ => ?_
    simp only [entityColumns_lenient]
    exact .refl _

theorem update_upheld : UpheldFrom p.update p.lenient.update := by
  unfold update
  rw [lenient_arguments]
  split
  · exact p.updateByEntity_upheld
  · exact p.updateBySet_upheld

theorem delete_upheld : UpheldFrom p.delete p.lenient.delete := by
  unfold delete
  refine .bind (.refl _) fun found => ?_
  cases found with
  | some entity => exact .refl _
  | none => exact .bind (.mapM p.rootFilter_upheld _) fun _ => .refl _

end Writes

end Planner

namespace Plan

theorem statements_upheld (p : Planner) : UpheldFrom (statements p) (statements p.lenient) := by
  unfold statements
  rw [p.lenient_operation]
  split
  · exact .bind p.select_upheld fun _ => .refl _
  · exact p.write_upheld
  · exact p.write_upheld
  · exact p.write_upheld
  · exact .bind p.update_upheld fun _ => .refl _
  · exact .bind p.delete_upheld fun _ => .refl _

theorem argumentTable_lenient (r : Resolver) (arguments : List FieldTree) :
    argumentTable r.lenient arguments = argumentTable r arguments := by
  induction arguments with
  | nil => rfl
  | cons argument rest ih =>
    simp only [argumentTable, ih]
    rfl

theorem targetTable_lenient (r : Resolver) (spec : QuerySpec) :
    targetTable r.lenient spec = targetTable r spec := by
  unfold targetTable
  rw [argumentTable_lenient]
  rfl

/-- The target is found, and the arguments are sorted, before any link is. -/
theorem ofSpec_upheld (r : Resolver) (windowAlias : String) (spec : QuerySpec) :
    Upheld (ofSpec r windowAlias spec) (ofSpec r.lenient windowAlias spec) := by
  intro plan hplan
  unfold ofSpec at hplan ⊢
  obtain ⟨table, htable, hplan⟩ := except_bind_ok.mp hplan
  refine except_bind_ok.mpr ⟨table, (targetTable_lenient r spec).trans htable, ?_⟩
  split at hplan
  · cases hplan
  · rename_i hallows
    rw [if_neg hallows]
    obtain ⟨arguments, harguments, hplan⟩ := except_bind_ok.mp hplan
    obtain ⟨result, hrun, hplan⟩ := except_bind_ok.mp hplan
    let p : Planner := ⟨r, windowAlias, table, spec.operation, spec.output, spec.outputKind, arguments⟩
    have hlenient : (statements p.lenient).run default = .ok result := statements_upheld p _ _ hrun
    exact except_bind_ok.mpr ⟨arguments, harguments, except_bind_ok.mpr ⟨result, hlenient, hplan⟩⟩

end Plan

namespace Compiler

/-- The compiler with another policy for ambiguous links. -/
def under (c : Compiler) (policy : JunctionPolicy) : Compiler :=
  { c with options := { c.options with junctionPolicy := policy } }

theorem compile_upheld (c : Compiler) (spec : QuerySpec) :
    Upheld ((c.under .error).compile spec) ((c.under .warn).compile spec) := by
  intro compiled hcompile
  obtain ⟨plan, hplan, hcompile⟩ := except_bind_ok.mp hcompile
  exact except_bind_ok.mpr ⟨plan, Plan.ofSpec_upheld _ _ _ plan hplan, hcompile⟩

/-- Without a key between two tables they are linked through the first of the narrowest tables that pair
them, if there are any; a strict policy refuses the choice among several. What compiles under it compiles to
the same statement where the choice is made. -/
theorem junctions_chosen (c : Compiler) :
    (∀ parent child field many, parent.keysTo child.id = [] → child.keysTo parent.id = [] →
      (∀ policy, Link.infer c.schema parent child field many policy = .ok none ↔
        ∀ table ∈ c.schema.tables, ¬table.Pairs parent child) ∧
      ((∃ table ∈ c.schema.tables, table.Pairs parent child) →
        ∃ junction others link, c.schema.junctions parent child = junction :: others ∧
          link.Through junction parent child ∧
          Link.infer c.schema parent child field many .warn = .ok (some link) ∧
          Link.infer c.schema parent child field many .error =
            if others = [] then .ok (some link)
            else .error (.of (.ambiguousRelation parent.name child.name
              ((junction :: others).map Table.name))))) ∧
      ∀ spec compiled, (c.under .error).compile spec = .ok compiled →
        (c.under .warn).compile spec = .ok compiled := by
  refine ⟨fun parent child field many hparent hchild => ?_, c.compile_upheld⟩
  simp only [Link.infer_of_unlinked hparent hchild]
  refine ⟨fun policy => Link.throughJunction_eq_none_iff, fun ⟨table, htable, hpairs⟩ => ?_⟩
  cases hjunctions : c.schema.junctions parent child with
  | nil => exact absurd hpairs (Link.junctions_eq_nil_iff.mp hjunctions table htable)
  | cons junction others =>
    obtain ⟨link, hthrough, hwarn, herror⟩ := Link.throughJunction_cases hjunctions
    exact ⟨junction, others, link, rfl, hthrough, hwarn, herror⟩

/-- People have tags, in either of two tables and with a date in a third one, and they are in groups. -/
def labelDeclarations : List TableDeclaration := [
  ⟨"Person", .table, [⟨"Id", .integer 4, false, true, false⟩], []⟩,
  ⟨"Tag", .table, [⟨"Id", .integer 4, false, true, false⟩], []⟩,
  ⟨"Club", .table, [⟨"Id", .integer 4, false, true, false⟩], []⟩,
  ⟨"Tagging", .table, [⟨"PersonId", .integer 4, false, true, false⟩,
    ⟨"TagId", .integer 4, false, true, false⟩, ⟨"At", .dateTime, false, false, false⟩],
    [⟨["PersonId"], "Person", []⟩, ⟨["TagId"], "Tag", []⟩]⟩,
  ⟨"PersonTag", .table, [⟨"PersonId", .integer 4, false, true, false⟩,
    ⟨"TagId", .integer 4, false, true, false⟩],
    [⟨["PersonId"], "Person", []⟩, ⟨["TagId"], "Tag", []⟩]⟩,
  ⟨"PersonLabel", .table, [⟨"PersonId", .integer 4, false, true, false⟩,
    ⟨"TagId", .integer 4, false, true, false⟩],
    [⟨["PersonId"], "Person", []⟩, ⟨["TagId"], "Tag", []⟩]⟩,
  ⟨"Member", .table, [⟨"PersonId", .integer 4, false, true, false⟩,
    ⟨"ClubId", .integer 4, false, true, false⟩],
    [⟨["PersonId"], "Person", []⟩, ⟨["ClubId"], "Club", []⟩]⟩]

def labelShapes : Shapes := .ofList [
  ⟨"Person", none, [⟨"Id", .i32, false, default⟩, ⟨"Clubs", .list (.shape "Club"), false, default⟩]⟩,
  ⟨"Club", none, [⟨"Id", .i32, false, default⟩]⟩]

/-- People with their clubs, whose tables are linked in one way. -/
def clubSelect : SpecDeclaration where
  operation := .select
  table := some "Person"
  arguments := []
  returns := [.many "Person"]

/-- The two narrowest tables that pair people with tags, and a statement that is compiled without them. -/
def labelTest (s : Schema) : Bool :=
  ((s.findTable "Person").any fun person => (s.findTable "Tag").any fun tag =>
    decide (person.name = "Person" ∧ tag.name = "Tag" ∧ person.keysTo tag.id = [] ∧
      tag.keysTo person.id = [] ∧
      (s.junctions person tag).map Table.name = ["PersonTag", "PersonLabel"])) &&
  (clubSelect.build labelShapes).toOption.any fun spec =>
    (((⟨s, default, .exact⟩ : Compiler).under .error).compile spec).toOption.any fun _ => true

theorem junctions_chosen_labels :
    ∃ s person tag junction link spec compiled, Schema.build labelDeclarations = .ok s ∧
      s.findTable "Person" = some person ∧ s.findTable "Tag" = some tag ∧
      person.keysTo tag.id = [] ∧ tag.keysTo person.id = [] ∧ junction.name = "PersonTag" ∧
      link.Through junction person tag ∧
      Link.infer s person tag "Tags" true .warn = .ok (some link) ∧
      Link.infer s person tag "Tags" true .error =
        .error (.of (.ambiguousRelation "Person" "Tag" ["PersonTag", "PersonLabel"])) ∧
      clubSelect.build labelShapes = .ok spec ∧
      ((⟨s, default, .exact⟩ : Compiler).under .error).compile spec = .ok compiled ∧
      ((⟨s, default, .exact⟩ : Compiler).under .warn).compile spec = .ok compiled := by
  have htest : (Schema.build labelDeclarations).toOption.any labelTest = true := by decide +kernel
  obtain ⟨s, hs, htest⟩ := exists_ok_of_any htest
  simp only [labelTest, Bool.and_eq_true, Option.any_eq_true, decide_eq_true_eq] at htest
  obtain ⟨⟨person, hperson, tag, htag, hpersonName, htagName, hparent, hchild, hnames⟩, htest⟩ := htest
  obtain ⟨spec, hspec, compiled, hcompiled, _⟩ := htest
  obtain ⟨hlinks, hpolicies⟩ := junctions_chosen ⟨s, default, .exact⟩
  have hsome : ∃ table ∈ s.tables, table.Pairs person tag := by
    by_contra hnone
    have hnil : s.junctions person tag = [] :=
      Link.junctions_eq_nil_iff.mpr fun table htable hpairs => hnone ⟨table, htable, hpairs⟩
    rw [hnil] at hnames
    cases hnames
  obtain ⟨junction, others, link, hjunctions, hthrough, hwarn, herror⟩ :=
    (hlinks person tag "Tags" true hparent hchild).2 hsome
  rw [hjunctions] at hnames
  have hcompile := ok_of_toOption hcompiled
  refine ⟨s, person, tag, junction, link, spec, compiled, hs, hperson, htag, hparent, hchild,
    (List.cons.inj hnames).1, hthrough, hwarn, ?_, ok_of_toOption hspec, hcompile,
    hpolicies spec compiled hcompile⟩
  have hothers : others ≠ [] := by
    rintro rfl
    simp at hnames
  rw [herror, if_neg hothers, hnames, hpersonName, htagName]

end Compiler

end ShapeSql
