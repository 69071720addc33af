import ShapeSql.Compiler
import ShapeSql.Schema.Declaration
import ShapeSql.Proofs.Plan.Basic
import ShapeSql.Proofs.Schema.Keys

namespace ShapeSql

/-- A compiler has the schema that it was set up with. -/
theorem CompilerSetup.schema_of_build {setup : CompilerSetup} {schema : Schema} {c : Compiler}
    (hsetup : setup.schema = some schema) (hbuild : setup.build = .ok c) : c.schema = schema := by
  unfold build at hbuild
  rw [hsetup] at hbuild
  simp only at hbuild
  split at hbuild
  · cases hbuild
  · cases hbuild
    rfl

namespace Compiler

/-- A compiled statement has the plan of its specification. -/
theorem ofSpec_of_compile {c : Compiler} {spec : QuerySpec} {compiled : Compiled}
    (h : c.compile spec = .ok compiled) :
    compiled.schema = c.schema ∧
      Plan.ofSpec c.resolver c.options.keyWindowAlias spec = .ok compiled.plan := by
  obtain ⟨plan, hplan, h⟩ := except_bind_ok.mp h
  cases h
  exact ⟨rfl, hplan⟩

/-- What a compiled statement is planned by: a planner over a schema whose keys join what is there, with
a target that is one of its tables. -/
theorem planner_of_compile {declarations : List TableDeclaration} {schema : Schema}
    {setup : CompilerSetup} {c : Compiler} {spec : QuerySpec} {compiled : Compiled}
    (hschema : Schema.build declarations = .ok schema) (hsetup : setup.schema = some schema)
    (hbuild : setup.build = .ok c) (hcompile : c.compile spec = .ok compiled) :
    ∃ (p : Planner) (d : Draft), Plan.PlannedBy c.resolver c.options.keyWindowAlias spec p ∧
      (Plan.statements p).run default =
        .ok ((compiled.plan.batch, compiled.plan.relations), d) ∧
      compiled.plan.rules = d.rules ∧ compiled.plan.params = d.params ∧
      p.schema = compiled.schema ∧ p.schema.Sound ∧ p.schema.Keyed ∧ p.table ∈ p.schema.tables := by
  obtain ⟨hsame, hplan⟩ := ofSpec_of_compile hcompile
  obtain ⟨p, d, hp, hrun, hrules, hparams⟩ := Plan.ofSpec_planner hplan
  have htables : p.schema = compiled.schema := by
    rw [hsame, Planner.schema, hp.resolver]
    rfl
  have hbuilt : p.schema = schema := by
    rw [htables, hsame, CompilerSetup.schema_of_build hsetup hbuild]
  refine ⟨p, d, hp, hrun, hrules, hparams, htables, ?_, ?_, ?_⟩
  · exact hbuilt ▸ Schema.build_sound hschema
  · exact hbuilt ▸ Schema.build_keyed hschema
  · rw [Planner.schema, hp.resolver]
    exact Plan.mem_of_targetTable hp.target

/-- A compiled select is one query, over the relations of its result. -/
theorem select_of_compile {declarations : List TableDeclaration} {schema : Schema}
    {setup : CompilerSetup} {c : Compiler} {spec : QuerySpec} {compiled : Compiled}
    (hschema : Schema.build declarations = .ok schema) (hsetup : setup.schema = some schema)
    (hbuild : setup.build = .ok c) (hcompile : c.compile spec = .ok compiled)
    (hselect : spec.operation = .select) :
    ∃ (p : Planner) (d : Draft) (query : Sql.Query) (relations : Relations),
      Plan.PlannedBy c.resolver c.options.keyWindowAlias spec p ∧
      p.select.run default = .ok ((query, relations), d) ∧
      compiled.plan.batch = [.query query] ∧ compiled.plan.relations = some relations ∧
      compiled.plan.rules = d.rules ∧ compiled.plan.params = d.params ∧
      p.schema = compiled.schema ∧ p.schema.Sound ∧ p.schema.Keyed ∧ p.table ∈ p.schema.tables := by
  obtain ⟨p, d, hp, hrun, hrest⟩ := planner_of_compile hschema hsetup hbuild hcompile
  have hplanned : p.operation = .select := hp.operation.trans hselect
  obtain ⟨query, relations, hquery, hbatch, hrelations⟩ := Planner.select_of_statements hrun hplanned
  exact ⟨p, _, query, relations, hp, hquery, hbatch, hrelations, hrest⟩

/-- A compiler of declared tables that matches names as they are written, and a declared specification
that it compiles: both are evaluated, with a test of what comes of them. -/
theorem exists_compiled {declarations : List TableDeclaration} {shapes : Shapes}
    {declaration : SpecDeclaration} {test : Compiler → QuerySpec → Compiled → Bool}
    (h : ((Schema.build declarations).toOption.any fun schema =>
      (declaration.build shapes).toOption.any fun spec =>
        ((⟨schema, default, .exact⟩ : Compiler).compile spec).toOption.any
          (test ⟨schema, default, .exact⟩ spec)) = true) :
    ∃ schema spec compiled, Schema.build declarations = .ok schema ∧
      declaration.build shapes = .ok spec ∧
      (⟨schema, default, .exact⟩ : Compiler).compile spec = .ok compiled ∧
      test ⟨schema, default, .exact⟩ spec compiled = true := by
  obtain ⟨schema, hschema, h⟩ := exists_ok_of_any h
  obtain ⟨spec, hspec, h⟩ := exists_ok_of_any h
  obtain ⟨compiled, hcompile, h⟩ := exists_ok_of_any h
  exact ⟨schema, spec, compiled, hschema, hspec, hcompile, h⟩

end Compiler

end ShapeSql
