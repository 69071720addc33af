import ShapeSql.Proofs.Bind.Scoped
import ShapeSql.Proofs.Plan.Removals
import ShapeSql.Proofs.Sql.Literal

namespace ShapeSql

open Sql Planning

namespace Planner

instance (p : Planner) (w : World) (tree : WrittenTree) : Decidable (p.Linked w tree) :=
  inferInstanceAs (Decidable (∀ c ∈ collections tree, ∀ row ∈ c.rows w, ∃ owner ∈ c.owners w,
    p.refers w c.pairs owner row = true))

instance (p : Planner) (before after : World) (c : Collection) :
    Decidable (p.NoOrphans before after c) :=
  inferInstanceAs (Decidable (∀ row ∈ c.rows after, ∀ owner ∈ c.owners before,
    owner ∉ c.owners after → p.refers before c.pairs owner row = false))

end Planner

namespace Compiler

open Planner

variable {c : Compiler} {spec : QuerySpec} {compiled : Compiled}
  {declarations : List TableDeclaration} {schema : Schema} {setup : CompilerSetup}

/-- The DELETEs of a bound sync remove, whatever is stored and whatever is written, the rows of written
owners that are not listed; no row of a written collection refers to a removed owner afterwards if all
that do are removed themselves, as they are where no DELETE removes owners; but the DELETE of the
collection leaves each that refers by its key to an owner that is not listed. -/
theorem bind_sweeps (hschema : Schema.build declarations = .ok schema)
    (hsetup : setup.schema = some schema) (hbuild : setup.build = .ok c)
    (hcompile : c.compile spec = .ok compiled) (hsync : spec.operation = .sync)
    {args : Value} {bound : Bound} (hbind : compiled.bind args = .ok bound) :
    ∃ p entity tree batch, Plan.PlannedBy c.resolver c.options.keyWindowAlias spec p ∧
      p.entity = .ok entity ∧ p.writtenTree entity = .ok tree ∧
      compiled.resolved args = .ok batch ∧ batch.render .empty = .ok bound.sql ∧
      ∀ w : World, p.Swept tree w (w.afterDeletes batch) := by
  obtain ⟨p, d, hp, hrun, _⟩ := planner_of_compile hschema hsetup hbuild hcompile
  obtain ⟨subs, _, batch, _, hresolved, hfilled, hrender⟩ := Compiled.resolved_of_bind hbind
  have hoperation : p.operation = .sync := hp.operation.trans hsync
  obtain ⟨entity, tree, hentity, htree, hdeletes⟩ := Planner.write_afterDeletes hoperation
    (Planner.write_of_statements hrun (.inr (.inr hoperation)))
  refine ⟨p, entity, tree, batch, hp, hentity, htree, hresolved, hrender, fun w => ?_⟩
  rw [hfilled, Batch.filled, hdeletes]
  exact swept_keeping p tree w

/-- Customers with their orders, and these with their lines. -/
def customerShapes : Shapes := .ofList [
  ⟨"Customer", none, [⟨"Id", .i32, false, default⟩, ⟨"Orders", .list (.shape "Order"), false, default⟩]⟩,
  ⟨"Order", none, [⟨"Id", .i32, false, default⟩, ⟨"Lines", .list (.shape "Line"), false, default⟩]⟩,
  ⟨"Line", none, [⟨"Id", .i32, false, default⟩]⟩]

/-- A customer with all that belongs to it, kept in step. -/
def customerSync : SpecDeclaration where
  operation := .sync
  table := some "Customer"
  arguments := [⟨"Customer", .shape "Customer", false, default⟩]
  returns := []

/-- A customer without orders. -/
def customerArguments : Value :=
  .record [("Customer", .record [("Id", .i32 1), ("Orders", .list [])])]

/-- The customer has an order with a line, and is written without one. -/
def customerWorld : World where
  dialect := .literal
  database := .literal
    [("Customer", [[("Id", .i32 1)]]),
      ("Order", [[("Id", .i32 10), ("CustomerId", .i32 1)]]),
      ("Line", [[("Id", .i32 100), ("OrderId", .i32 10)]])]
    [("lookup0", [[("__index", .i32 0), ("Id", .i32 1)]])]
  params := []

/-- The sync is bound. -/
def customerTest (_ : Compiler) (spec : QuerySpec) (compiled : Compiled) : Bool :=
  spec.operation == .sync && (compiled.bind customerArguments).toOption.any fun _ => true

/-- Of the customer that is written without orders, the DELETEs remove the order. -/
theorem bind_sweeps_customer :
    ∃ schema spec compiled p entity tree batch, Schema.build orderDeclarations = .ok schema ∧
      customerSync.build customerShapes = .ok spec ∧
      (⟨schema, default, .exact⟩ : Compiler).compile spec = .ok compiled ∧
      Plan.PlannedBy (Compiler.resolver ⟨schema, default, .exact⟩)
        (default : CompilerOptions).keyWindowAlias spec p ∧
      p.entity = .ok entity ∧ p.writtenTree entity = .ok tree ∧
      compiled.resolved customerArguments = .ok batch ∧
      p.Swept tree customerWorld (customerWorld.afterDeletes batch) := by
  obtain ⟨schema, spec, compiled, hschema, hspec, hcompile, htest⟩ :
      ∃ schema spec compiled, Schema.build orderDeclarations = .ok schema ∧
        customerSync.build customerShapes = .ok spec ∧
        (⟨schema, default, .exact⟩ : Compiler).compile spec = .ok compiled ∧
        customerTest ⟨schema, default, .exact⟩ spec compiled = true :=
    exists_compiled (by decide +kernel)
  simp only [customerTest, Bool.and_eq_true, beq_iff_eq] at htest
  obtain ⟨bound, hbind, _⟩ := exists_ok_of_any htest.2
  have hbuild : (CompilerSetup.mk (some schema) default (some .exact)).build =
      .ok ⟨schema, default, .exact⟩ := rfl
  obtain ⟨p, entity, tree, batch, hp, hentity, htree, hresolved, _, hswept⟩ :=
    bind_sweeps hschema rfl hbuild hcompile htest.1 hbind
  exact ⟨schema, spec, compiled, p, entity, tree, batch, hschema, hspec, hcompile, hp, hentity, htree,
    hresolved, hswept customerWorld⟩

/-- Every row refers to an owner, until the sync removes the order and leaves its line. -/
def orphanTest (c : Compiler) (spec : QuerySpec) (compiled : Compiled) : Bool :=
  customerTest c spec compiled &&
  (Plan.targetTable c.resolver spec).toOption.any fun table =>
    (Arguments.classify spec.operation spec.arguments.children).toOption.any fun arguments =>
      let p : Planner := ⟨c.resolver, c.options.keyWindowAlias, table, spec.operation, spec.output,
        spec.outputKind, arguments⟩
      p.entity.toOption.any fun entity => (p.writtenTree entity).toOption.any fun tree =>
        (compiled.resolved customerArguments).toOption.any fun batch =>
          decide (p.Linked customerWorld tree) && decide (∃ c ∈ collections tree,
            ¬p.NoOrphans customerWorld (customerWorld.afterDeletes batch) c)

/-- The line of the order that the sync removes refers to it still. -/
theorem orphaned_line :
    ∃ schema spec compiled bound p entity tree batch, Schema.build orderDeclarations = .ok schema ∧
      customerSync.build customerShapes = .ok spec ∧ spec.operation = .sync ∧
      (⟨schema, default, .exact⟩ : Compiler).compile spec = .ok compiled ∧
      compiled.bind customerArguments = .ok bound ∧
      Plan.PlannedBy (Compiler.resolver ⟨schema, default, .exact⟩)
        (default : CompilerOptions).keyWindowAlias spec p ∧
      p.entity = .ok entity ∧ p.writtenTree entity = .ok tree ∧
      compiled.resolved customerArguments = .ok batch ∧ p.Linked customerWorld tree ∧
      ¬∀ c ∈ collections tree, p.NoOrphans customerWorld (customerWorld.afterDeletes batch) c := by
  obtain ⟨schema, spec, compiled, hschema, hspec, hcompile, htest⟩ :
      ∃ schema spec compiled, Schema.build orderDeclarations = .ok schema ∧
        customerSync.build customerShapes = .ok spec ∧
        (⟨schema, default, .exact⟩ : Compiler).compile spec = .ok compiled ∧
        orphanTest ⟨schema, default, .exact⟩ spec compiled = true :=
    exists_compiled (by decide +kernel)
  simp only [orphanTest, customerTest, Bool.and_eq_true, beq_iff_eq] at htest
  obtain ⟨⟨hsync, hbinds⟩, htargets⟩ := htest
  obtain ⟨bound, hbind, _⟩ := exists_ok_of_any hbinds
  obtain ⟨table, htable, hclassifies⟩ := exists_ok_of_any htargets
  obtain ⟨arguments, harguments, hentities⟩ := exists_ok_of_any hclassifies
  obtain ⟨entity, hentity, htrees⟩ := exists_ok_of_any hentities
  obtain ⟨tree, htree, hresolves⟩ := exists_ok_of_any htrees
  obtain ⟨batch, hresolved, hdecided⟩ := exists_ok_of_any hresolves
  rw [Bool.and_eq_true, decide_eq_true_eq, decide_eq_true_eq] at hdecided
  obtain ⟨hlinked, collection, hmem, horphans⟩ := hdecided
  exact ⟨schema, spec, compiled, bound, _, entity, tree, batch, hschema, hspec, hsync, hcompile, hbind,
    ⟨rfl, rfl, htable, rfl, rfl, rfl, harguments⟩, hentity, htree, hresolved, hlinked,
    fun hnone => horphans (hnone collection hmem)⟩

end Compiler

end ShapeSql
