import ShapeSql.Proofs.Bind.Scoped
import ShapeSql.Proofs.Plan.WindowKeys
import ShapeSql.Proofs.Sql.Literal

namespace ShapeSql

open Sql

/-- The key of a row, under the names of its columns. -/
def Table.keyOf (t : Table) (row : Row) : Row :=
  t.keyColumns.map fun column => (column.name, row.cell column.name)

/-- What a window joins to the root: a place for each navigation that is reached by to-one steps. -/
def Relations.toOneFactors (relations : Relations) (s : Schema) : List Factor :=
  (relations.visits.filter fun v => v.label.isJoined && Relations.reachedToOne v).map fun v =>
    .table (s.table v.label.table).name (some v.label.aliasName)

namespace Compiler

variable {c : Compiler} {spec : QuerySpec} {compiled : Compiled}
  {declarations : List TableDeclaration} {schema : Schema} {setup : CompilerSetup}

/-- A page is one of roots: wherever primary keys are unique and not null, every navigation that the
window joins matches one row at most for whatever stands before it, and before it is cut to its page the
window goes through keys of rows of the root, and through none of them twice. -/
theorem bind_pagesRoots (hschema : Schema.build declarations = .ok schema)
    (hsetup : setup.schema = some schema) (hbuild : setup.build = .ok c)
    (hcompile : c.compile spec = .ok compiled) (hselect : spec.operation = .select)
    {arguments : Arguments} {target : Table} {relations : Relations}
    (harguments : Arguments.classify spec.operation spec.arguments.children = .ok arguments)
    (htarget : Plan.targetTable c.resolver spec = .ok target)
    (hpaged : arguments.isPaged = true) (hrelations : compiled.plan.relations = some relations)
    (hjoins : relations.hasJoins = true) {args : Value} {bound : Bound}
    (hbind : compiled.bind args = .ok bound) :
    ∃ query window inner outer, compiled.resolved args = .ok [.query query] ∧
      Batch.render [.query query] .empty = .ok bound.sql ∧
      query.source = some ⟨.derived window c.options.keyWindowAlias, outer⟩ ∧
      window.source = some ⟨.table target.name (some relations.root.aliasName), inner⟩ ∧
      inner.map Join.factor = relations.toOneFactors compiled.schema ∧
      ∀ w : World, w.database.Keyed w.dialect compiled.schema →
        Source.AddsOne ⟨.table target.name (some relations.root.aliasName), inner⟩ w [] ∧
        (∃ roots : List Row, roots.Sublist (w.database.tables target.name) ∧
          ({ window with offset := none, fetch := none }.rows w []).Perm (roots.map target.keyOf)) ∧
        ({ window with offset := none, fetch := none }.rows w []).Pairwise fun a b =>
          ¬w.dialect.sameKey target.keyColumns a b := by
  obtain ⟨p, d, query, found, hp, hrun, hbatch, hfound, _, _, hsame, hs, hkeyed, htable⟩ :=
    select_of_compile hschema hsetup hbuild hcompile hselect
  obtain ⟨subs, _, _, hresolved, hrender⟩ := Compiled.query_of_bind hbatch hbind
  rw [hrelations] at hfound
  cases hfound
  have htargeted := hp.target
  have hclassified := hp.arguments
  rw [htarget] at htargeted
  rw [harguments] at hclassified
  cases htargeted
  cases hclassified
  have hwired : relations.Wired p.schema p.table :=
    Planner.select_wired hs hkeyed htable Draft.sound_default hrun
  obtain ⟨start, filters, joined, order, _, after, _, _, _, _, hplanned⟩ := p.select_inv hrun
  have hwindow : (p.keyWindow relations filters order).run after = .ok (query, d) := by
    rcases hplanned with ⟨_, hplain, _⟩ | ⟨_, _, _, hwindow⟩ | ⟨_, hplain, _⟩
    · rw [hpaged] at hplain
      cases hplain
    · exact hwindow
    · rw [hpaged, hjoins] at hplain
      cases hplain
  obtain ⟨hhasKey, offset, fetch, _, _, _, rfl⟩ := Planner.keyWindow_inv hwindow
  let f := HoleFiller.ofSubstitution subs
  let window := (p.keyPage relations filters order offset fetch).filled f
  obtain ⟨outer, hsource⟩ := Planner.source_pageOutput f p relations filters order offset fetch
  have hinner := Planner.source_keyPage f p relations filters order offset fetch
  have hroot := Planner.factor_root hs htable hwired f
  rw [hp.windowAlias] at hsource
  rw [hroot] at hinner
  refine ⟨_, window, _, outer, hresolved, hrender, hsource, hinner, ?_, ?_⟩
  · rw [joinsFilled_eq, Planner.joins, List.map_map, List.map_map, ← hsame]
    rfl
  · intro w hdatabase
    rw [← hsame] at hdatabase
    have hone := Planner.addsOne_window f [] hs hwired hdatabase
    rw [hroot] at hone
    obtain ⟨roots, hroots, hperm, hapart⟩ :=
      Planner.rows_keyPage f filters hs htable hhasKey hwired hdatabase order
    exact ⟨hone, ⟨roots, hroots, hperm⟩, hapart⟩

/-- Pets with the person that they belong to. -/
def petShapes : Shapes := .ofList [
  ⟨"Pet", none, [⟨"Id", .i32, false, default⟩, ⟨"Person", .shape "Person", false, default⟩]⟩,
  ⟨"Person", none, [⟨"Id", .i32, false, default⟩]⟩]

/-- A page of pets. -/
def petPage : SpecDeclaration where
  operation := .select
  table := some "Pet"
  arguments := [⟨"Take", .i32, false, { (default : Directives) with fetch := true }⟩]
  returns := [.many "Pet"]

def petArguments : Value := .record [("Take", .i32 1)]

/-- Two people, one with two pets, and a pet without a person. -/
def petWorld : World where
  dialect := .literal
  database := .literal [
    ("Person", [[("Id", .i32 1)], [("Id", .i32 2)]]),
    ("Pet", [[("Id", .i32 10), ("PersonId", .i32 1)], [("Id", .i32 11), ("PersonId", .i32 1)],
      [("Id", .i32 12), ("PersonId", .null)]])] []
  params := [("Take", .i32 1)]

/-- The page is bound, it joins the people, and the keys of people and pets are unique. -/
def petTest (c : Compiler) (spec : QuerySpec) (compiled : Compiled) : Bool :=
  spec.operation == .select &&
  ((compiled.bind petArguments).toOption.any fun _ => true) &&
  ((Arguments.classify spec.operation spec.arguments.children).toOption.any Arguments.isPaged) &&
  ((Plan.targetTable c.resolver spec).toOption.any fun target => target.name == "Pet") &&
  (compiled.plan.relations.any fun relations => relations.hasJoins &&
    !(relations.toOneFactors compiled.schema).isEmpty) &&
  decide (petWorld.database.Keyed petWorld.dialect compiled.schema)

/-- The window of the page of pets joins the people, and goes through no pet twice. -/
theorem bind_pagesRoots_pets :
    ∃ schema spec compiled bound, ∃ (target : Table) (relations : Relations),
    ∃ query window inner outer,
      Schema.build kennelDeclarations = .ok schema ∧ petPage.build petShapes = .ok spec ∧
      (⟨schema, default, .exact⟩ : Compiler).compile spec = .ok compiled ∧
      compiled.bind petArguments = .ok bound ∧ target.name = "Pet" ∧
      compiled.resolved petArguments = .ok [.query query] ∧
      query.source = some ⟨.derived window "__page", outer⟩ ∧
      window.source = some ⟨.table "Pet" (some relations.root.aliasName), inner⟩ ∧ inner ≠ [] ∧
      ({ window with offset := none, fetch := none }.rows petWorld []).Pairwise fun a b =>
        ¬petWorld.dialect.sameKey target.keyColumns a b := by
  obtain ⟨schema, spec, compiled, hschema, hspec, hcompile, htest⟩ :
      ∃ schema spec compiled, Schema.build kennelDeclarations = .ok schema ∧
        petPage.build petShapes = .ok spec ∧
        (⟨schema, default, .exact⟩ : Compiler).compile spec = .ok compiled ∧
        petTest ⟨schema, default, .exact⟩ spec compiled = true :=
    exists_compiled (by decide +kernel)
  simp only [petTest, Bool.and_eq_true, beq_iff_eq, decide_eq_true_eq] at htest
  obtain ⟨⟨⟨⟨⟨hselect, hbinds⟩, hclassifies⟩, htargets⟩, hrelates⟩, hkeyed⟩ := htest
  obtain ⟨bound, hbind, _⟩ := exists_ok_of_any hbinds
  obtain ⟨arguments, harguments, hpaged⟩ := exists_ok_of_any hclassifies
  obtain ⟨target, htarget, hname⟩ := exists_ok_of_any htargets
  obtain ⟨relations, hrelations, hjoins⟩ := (Option.any_eq_true _ _).mp hrelates
  simp only [Bool.and_eq_true, Bool.not_eq_true'] at hjoins
  have hbuild : (CompilerSetup.mk (some schema) default (some .exact)).build =
      .ok ⟨schema, default, .exact⟩ := rfl
  obtain ⟨query, window, inner, outer, hresolved, _, hsource, hinner, hfactors, hpages⟩ :=
    bind_pagesRoots hschema rfl hbuild hcompile hselect harguments htarget hpaged hrelations
      hjoins.1 hbind
  have hname : target.name = "Pet" := by simpa using hname
  rw [hname] at hinner
  have hnonempty : inner ≠ [] := by
    rintro rfl
    rw [← hfactors] at hjoins
    cases hjoins.2
  exact ⟨schema, spec, compiled, bound, target, relations, query, window, inner, outer, hschema,
    hspec, hcompile, hbind, hname, hresolved, hsource, hinner, hnonempty,
    (hpages petWorld hkeyed).2.2⟩

end Compiler

end ShapeSql
