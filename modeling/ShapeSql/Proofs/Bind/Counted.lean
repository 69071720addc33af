import ShapeSql.Proofs.Bind.Scoped
import ShapeSql.Proofs.Plan.CountRows
import ShapeSql.Proofs.Sql.Literal

namespace ShapeSql

open Sql

/-- The number of rows of the first table for which some combination of what is joined to it in the query
that is counted passes. -/
def Sql.Query.matchingRoots? (w : World) (q : Query) : Option Nat :=
  match q.source with
  | some ⟨.derived ⟨_, _, some ⟨.table name (some rootAlias), joins⟩, filter, _, _, _, _⟩ _, _⟩ =>
    some ((w.database.tables name).countP fun row =>
      (joinsTuples w [] joins [(rootAlias, row)]).any fun t => (optionalTruth w [t] filter).holds)
  | _ => none

namespace Compiler

variable {c : Compiler} {spec : QuerySpec} {compiled : Compiled}
  {declarations : List TableDeclaration} {schema : Schema} {setup : CompilerSetup}

/-- The value that a count selects is the number of roots that match, whatever the arguments and wherever
primary keys are unique and not null, if the root has a key or leads to one row at most wherever it leads. -/
theorem bind_countsRoots (hschema : Schema.build declarations = .ok schema)
    (hsetup : setup.schema = some schema) (hbuild : setup.build = .ok c)
    (hcompile : c.compile spec = .ok compiled) (hselect : spec.operation = .select)
    (hcount : spec.outputKind = .count) {target : Table}
    (htarget : Plan.targetTable c.resolver spec = .ok target)
    (hone : target.hasKey = true ∨ ∀ relations, compiled.plan.relations = some relations →
      ∀ r ∈ relations.all, r.isToOne = true)
    {args : Value} {bound : Bound} (hbind : compiled.bind args = .ok bound) :
    ∃ query inner rootAlias joins, compiled.resolved args = .ok [.query query] ∧
      Batch.render [.query query] .empty = .ok bound.sql ∧
      query.source = some ⟨.derived inner "__count", []⟩ ∧
      inner.source = some ⟨.table target.name (some rootAlias), joins⟩ ∧
      (∀ j ∈ joins, j.kind = .left) ∧
      ∀ w : World, w.database.Keyed w.dialect compiled.schema →
        query.rows w [] = [[("", .i64 (Int64.ofNat ((w.database.tables target.name).countP fun row =>
          (joinsTuples w [] joins [(rootAlias, row)]).any (inner.passes w []))))]] := by
  obtain ⟨p, d, query, relations, hp, hrun, hbatch, hrelations, _, _, hsame, hs, hkeyed, htable⟩ :=
    select_of_compile hschema hsetup hbuild hcompile hselect
  obtain ⟨subs, _, _, hresolved, hrender⟩ := Compiled.query_of_bind hbatch hbind
  have htargeted := hp.target
  rw [htarget] at htargeted
  cases htargeted
  have hwired : relations.Wired p.schema p.table :=
    Planner.select_wired hs hkeyed htable Draft.sound_default hrun
  have hkind : p.outputKind = .count := hp.outputKind.trans hcount
  obtain ⟨start, filters, joined, _, _, _, _, _, _, _, hplanned⟩ := p.select_inv hrun
  have hquery : query = p.countQuery relations filters := by
    rcases hplanned with ⟨_, _, hquery, _⟩ | ⟨hnot, _⟩ | ⟨hnot, _⟩
    · exact hquery
    · exact absurd hkind hnot
    · exact absurd hkind hnot
  subst hquery
  let f := HoleFiller.ofSubstitution subs
  let inner := (p.countedQuery relations filters).filled f
  let joins := joinsFilled f (p.joins .left (Planner.joinedVisits relations fun _ => true))
  have hroot := Planner.factor_root hs htable hwired f
  have hsource : inner.source = some ⟨.table p.table.name (some relations.root.aliasName), joins⟩ := by
    rw [← hroot]
    exact Planner.source_countedQuery f p relations filters
  have hleft : ∀ j ∈ joins, j.kind = .left := by
    intro j hj
    simp only [joins, joinsFilled_eq, Planner.joins, List.map_map] at hj
    obtain ⟨v, _, rfl⟩ := List.mem_map.mp hj
    rfl
  have hderived : ((p.countQuery relations filters).filled f).source =
      some ⟨.derived inner "__count", []⟩ := by
    rw [Planner.countQuery_eq]
    rfl
  refine ⟨_, inner, relations.root.aliasName, joins, hresolved, hrender, hderived, hsource, hleft, ?_⟩
  intro w hdatabase
  rw [← hsame] at hdatabase
  exact Planner.rows_countQuery hs htable hwired hdatabase
    (hone.imp_right fun h => h relations hrelations)

/-- The number of people with a pet of a name. -/
def ownerCount : SpecDeclaration where
  operation := .select
  table := some "Person"
  arguments := [⟨"Name", .text, false, { (default : Directives) with join := some ⟨["Pet"]⟩ }⟩]
  returns := [.count]

def ownerArguments : Value := .record [("Name", .text "Rex")]

/-- A person with two pets of the name, and one without pets. -/
def ownerWorld : World where
  dialect := .literal
  database := .literal [
    ("Person", [[("Id", .i32 1)], [("Id", .i32 2)]]),
    ("Pet", [[("Id", .i32 10), ("PersonId", .i32 1), ("Name", .text "Rex")],
      [("Id", .i32 11), ("PersonId", .i32 1), ("Name", .text "Rex")]])] []
  params := [("Name", .text "Rex")]

/-- The count is bound, people have a key, and keys are unique. -/
def ownerTest (c : Compiler) (spec : QuerySpec) (compiled : Compiled) : Bool :=
  spec.operation == .select && spec.outputKind == .count &&
  ((compiled.bind ownerArguments).toOption.any fun _ => true) &&
  ((Plan.targetTable c.resolver spec).toOption.any Table.hasKey) &&
  decide (ownerWorld.database.Keyed ownerWorld.dialect compiled.schema)

/-- The number of people with a pet of the name is the number of people that match. -/
theorem bind_countsRoots_owners :
    ∃ schema spec compiled bound, ∃ target : Table, ∃ query inner rootAlias joins,
      Schema.build kennelDeclarations = .ok schema ∧ ownerCount.build kennelShapes = .ok spec ∧
      (⟨schema, default, .exact⟩ : Compiler).compile spec = .ok compiled ∧
      compiled.bind ownerArguments = .ok bound ∧
      compiled.resolved ownerArguments = .ok [.query query] ∧
      query.source = some ⟨.derived inner "__count", []⟩ ∧
      inner.source = some ⟨.table target.name (some rootAlias), joins⟩ ∧
      query.rows ownerWorld [] = [[("", .i64 (Int64.ofNat
        ((ownerWorld.database.tables target.name).countP fun row =>
          (joinsTuples ownerWorld [] joins [(rootAlias, row)]).any (inner.passes ownerWorld []))))]] := by
  obtain ⟨schema, spec, compiled, hschema, hspec, hcompile, htest⟩ :
      ∃ schema spec compiled, Schema.build kennelDeclarations = .ok schema ∧
        ownerCount.build kennelShapes = .ok spec ∧
        (⟨schema, default, .exact⟩ : Compiler).compile spec = .ok compiled ∧
        ownerTest ⟨schema, default, .exact⟩ spec compiled = true :=
    exists_compiled (by decide +kernel)
  simp only [ownerTest, Bool.and_eq_true, beq_iff_eq, decide_eq_true_eq] at htest
  obtain ⟨⟨⟨⟨hselect, hcount⟩, hbinds⟩, htargets⟩, hkeyed⟩ := htest
  obtain ⟨bound, hbind, _⟩ := exists_ok_of_any hbinds
  obtain ⟨target, htarget, hhasKey⟩ := exists_ok_of_any htargets
  have hbuild : (CompilerSetup.mk (some schema) default (some .exact)).build =
      .ok ⟨schema, default, .exact⟩ := rfl
  obtain ⟨query, inner, rootAlias, joins, hresolved, _, hsource, hinner, _, hcounts⟩ :=
    bind_countsRoots hschema rfl hbuild hcompile hselect hcount htarget (.inl hhasKey) hbind
  exact ⟨schema, spec, compiled, bound, target, query, inner, rootAlias, joins, hschema, hspec,
    hcompile, hbind, hresolved, hsource, hinner, hcounts ownerWorld hkeyed⟩

/-- People without a key, and their pets. -/
def keylessDeclarations : List TableDeclaration := [
  ⟨"Person", .table, [⟨"Id", .integer 4, false, false, false⟩], []⟩,
  ⟨"Pet", .table, [⟨"Id", .integer 4, false, true, false⟩,
    ⟨"PersonId", .integer 4, false, false, false⟩, ⟨"Name", .text, false, false, false⟩],
    [⟨["PersonId"], "Person", ["Id"]⟩]⟩]

/-- The count is bound, and differs from the number of people that match. -/
def keylessTest (_ : Compiler) (spec : QuerySpec) (compiled : Compiled) : Bool :=
  spec.outputKind == .count &&
  ((compiled.bind ownerArguments).toOption.any fun _ => true) &&
  decide (ownerWorld.database.Keyed ownerWorld.dialect compiled.schema) &&
  (compiled.resolved ownerArguments).toOption.any fun
    | [.query query] => decide (query.matchingRoots? ownerWorld = some 1) &&
      decide (query.rows ownerWorld [] = [[("", .i64 2)]])
    | _ => false

/-- Without a key a person is counted for each pet of the name. -/
theorem miscounted_owners :
    ∃ schema spec compiled bound query, Schema.build keylessDeclarations = .ok schema ∧
      ownerCount.build kennelShapes = .ok spec ∧ spec.outputKind = .count ∧
      (⟨schema, default, .exact⟩ : Compiler).compile spec = .ok compiled ∧
      compiled.bind ownerArguments = .ok bound ∧
      compiled.resolved ownerArguments = .ok [.query query] ∧
      ownerWorld.database.Keyed ownerWorld.dialect compiled.schema ∧
      query.matchingRoots? ownerWorld = some 1 ∧ query.rows ownerWorld [] = [[("", .i64 2)]] := by
  obtain ⟨schema, spec, compiled, hschema, hspec, hcompile, htest⟩ :
      ∃ schema spec compiled, Schema.build keylessDeclarations = .ok schema ∧
        ownerCount.build kennelShapes = .ok spec ∧
        (⟨schema, default, .exact⟩ : Compiler).compile spec = .ok compiled ∧
        keylessTest ⟨schema, default, .exact⟩ spec compiled = true :=
    exists_compiled (by decide +kernel)
  simp only [keylessTest, Bool.and_eq_true, beq_iff_eq, decide_eq_true_eq] at htest
  obtain ⟨⟨⟨hcount, hbinds⟩, hkeyed⟩, hresolves⟩ := htest
  obtain ⟨bound, hbind, _⟩ := exists_ok_of_any hbinds
  obtain ⟨batch, hresolved, hcounts⟩ := exists_ok_of_any hresolves
  split at hcounts
  · rename_i query
    obtain ⟨hroots, hrows⟩ := Bool.and_eq_true_iff.mp hcounts
    exact ⟨schema, spec, compiled, bound, query, hschema, hspec, hcount, hcompile, hbind, hresolved,
      hkeyed, of_decide_eq_true hroots, of_decide_eq_true hrows⟩
  · cases hcounts

end Compiler

end ShapeSql
