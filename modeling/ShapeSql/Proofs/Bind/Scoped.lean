import ShapeSql.Proofs.Bind.Safety
import ShapeSql.Proofs.Plan.WriteSites

namespace ShapeSql

open Sql

section Fragments

variable {s : Schema} {c : Catalog} {scopes : Scopes} {site : Site}

theorem Sql.exprsSites_params {α : Type} (name : α → String) (items : List α) :
    exprsCollect (.sites c) scopes (items.map fun a => Expr.param (name a)) = [] := by
  apply exprsCollect_map
  intro a
  rw [Expr.collect, Collector.sites_param]

namespace Predicate

variable (p : Predicate)

/-- The condition of a list reads the column and nothing else. -/
theorem sites_inList {items : List Value}
    (h : site ∈ (p.inList items).fragment.collect (.sites c) scopes) :
    site ∈ p.column.collect (.sites c) scopes := by
  have hmembers : ∀ negate, site ∈ (Expr.inList p.column
      ((p.members items).map fun m => .param m.1) negate).collect (.sites c) scopes →
        site ∈ p.column.collect (.sites c) scopes := by
    intro negate hsite
    rwa [Expr.collect_inList_of_keeps (fun _ => rfl), ← exprsCollect_eq, exprsSites_params Prod.fst,
      List.append_nil] at hsite
  have hnulls : ∀ negate, site ∈ (Expr.isNull p.column negate).collect (.sites c) scopes →
      site ∈ p.column.collect (.sites c) scopes := by
    intro negate hsite
    rwa [Expr.collect] at hsite
  rcases p.inList_cases items with ⟨_, hfill⟩ | ⟨_, _, hfill⟩ | ⟨_, _, hfill⟩ | ⟨_, _, hfill⟩
  · rw [hfill, Fragment.collect] at h
    split at h <;> simp at h
  · rw [hfill] at h
    exact hnulls p.negate h
  · rw [hfill] at h
    exact hmembers p.negate h
  · rw [hfill, Fragment.collect] at h
    split at h
    · rw [Expr.collect_and] at h
      exact (List.mem_append.mp h).elim (hmembers true) (hnulls true)
    · rw [Expr.collect_or] at h
      exact (List.mem_append.mp h).elim (hmembers false) (hnulls false)

variable {p}

/-- What a comparison comes to reads its column and nothing else. -/
theorem Makes.sites {value : Value} {f : Filling} (hmakes : p.Makes value f)
    (h : site ∈ f.fragment.collect (.sites c) scopes) : site ∈ p.column.collect (.sites c) scopes := by
  cases hmakes with
  | nothing =>
    rw [Filling.without, Fragment.collect, Expr.collect_tautology] at h
    cases h
  | null =>
    rwa [Filling.without, Fragment.collect, Expr.collect] at h
  | list => exact p.sites_inList h
  | compare | like =>
    rwa [Filling.expr, Fragment.collect, Expr.collect, Expr.collect, Collector.sites_param,
      List.append_nil] at h

end Predicate

/-- A dynamic ordering reads columns of its tables. -/
theorem sites_dynamicOrder {path : Path} {first : OrderTarget} {others : List OrderTarget}
    {value : Value} {terms : List OrderTerm}
    (hterms : dynamicOrder s path first others value = .ok terms)
    (h : site ∈ terms.flatMap fun t => t.expr.collect (.sites c) scopes) :
    site ∈ (Action.dynamicOrder first others).sites s c scopes := by
  obtain ⟨term, hterm, hsite⟩ := List.mem_flatMap.mp h
  obtain ⟨target, htarget, column, hcolumn, heq⟩ := term_of_dynamicOrder hterms hterm
  rw [heq, Expr.sites_columnOf, List.mem_singleton] at hsite
  rw [hsite]
  apply List.mem_flatMap.mpr
  refine ⟨target, htarget, ?_⟩
  exact List.mem_map.mpr ⟨column, hcolumn, rfl⟩

/-- The cells of rows read no columns. -/
theorem RowsSource.sites_fill {source : RowsSource} {path : Path} {value : Value} {f : Filling}
    (hfill : source.fill path value = .ok f) : f.fragment.collect (.sites c) scopes = [] := by
  have hcell : ∀ (row : Nat) (element : Element) (place : RowColumn × Nat),
      (RowsSource.cell source.names row element place).1.collect (.sites c) scopes = [] := by
    intro row element place
    obtain ⟨column, i⟩ := place
    cases column with
    | index | null => simp only [RowsSource.cell, Expr.collect]
    | parentIndex =>
      simp only [RowsSource.cell]
      split
      · rw [Expr.collect]
      · rw [Expr.collect]
    | field path => simp only [RowsSource.cell, Expr.collect, Collector.sites_param]
  obtain ⟨_, _, rfl⟩ := fill_ok_iff.mp hfill
  apply List.flatMap_eq_nil_iff.mpr
  intro exprs hexprs
  obtain ⟨row, hrow, rfl⟩ := List.mem_map.mp hexprs
  obtain ⟨⟨element, position⟩, _, rfl⟩ := List.mem_map.mp hrow
  rw [exprsCollect_eq, List.flatMap_map]
  apply List.flatMap_eq_nil_iff.mpr
  intro cell hcell'
  obtain ⟨place, _, rfl⟩ := List.mem_map.mp hcell'
  exact hcell _ _ _

/-- A key match reads its columns. -/
theorem sites_keyMatch {columns : List (Expr × Path)} {base : String} {value : Value}
    (h : site ∈ (keyMatch columns base value).fragment.collect (.sites c) scopes) :
    site ∈ (Action.keyMatch columns base).sites s c scopes := by
  rcases keyMatch_cases columns base value with ⟨_, hmatch⟩ | ⟨column, field, rfl, _, hmatch⟩ | hmatch
  · rw [hmatch, Filling.expr, Fragment.collect, Expr.collect_contradiction] at h
    cases h
  · rw [hmatch, Fragment.collect, Expr.collect_inList_of_keeps (fun _ => rfl), ← exprsCollect_eq,
      exprsSites_params Prod.fst, List.append_nil] at h
    exact List.mem_flatMap.mpr ⟨(column, field), List.mem_singleton.mpr rfl, h⟩
  · rw [hmatch, keyBranches, Fragment.collect, Expr.collect_anyOf] at h
    obtain ⟨branch, hbranch, hsite⟩ := List.mem_flatMap.mp h
    obtain ⟨entity, hentity, hbranch⟩ := List.mem_filterMap.mp hbranch
    obtain ⟨all, hall, rfl⟩ := Option.map_eq_some_iff.mp hbranch
    rw [Expr.collect, Expr.collect_of_allOf? hall, List.flatMap_map] at hsite
    obtain ⟨cell, hcell, hsite⟩ := List.mem_flatMap.mp hsite
    rw [KeyCell.equality, Expr.collect_eq, Expr.collect, Collector.sites_param,
      List.append_nil] at hsite
    obtain ⟨key, hkey, hcolumn, _⟩ := cell_of_listed hentity hcell
    rw [hcolumn] at hsite
    exact List.mem_flatMap.mpr ⟨key, hkey, hsite⟩

/-- Filling a hole leaves no sites but those of its rule. -/
theorem HoleRule.sites_fill {rule : HoleRule} {value : Value} {f : Filling}
    (hfill : rule.fill s value = .ok f) (h : site ∈ f.fragment.collect (.sites c) scopes) :
    site ∈ rule.action.sites s c scopes := by
  obtain ⟨hole, path, action⟩ := rule
  cases action with
  | predicate p =>
    cases hfill
    exact (p.fill_makes value).sites h
  | guard ignore expr =>
    cases hfill
    simp only [Filling.expr] at h
    split at h
    · rw [Fragment.collect, Expr.collect_tautology] at h
      cases h
    · exact h
  | order expr =>
    obtain ⟨direction, _, hpure⟩ := except_bind_ok.mp hfill
    cases hpure
    rw [Fragment.collect, List.flatMap_singleton] at h
    exact h
  | dynamicOrder first others =>
    obtain ⟨terms, hterms, hpure⟩ := except_bind_ok.mp hfill
    cases hpure
    exact sites_dynamicOrder hterms h
  | assign column param ignore =>
    rcases HoleRule.fill_assign hfill with ⟨_, rfl⟩ | ⟨_, rfl⟩
    · cases h
    · rw [Fragment.collect, List.flatMap_singleton, Assignment.collect, Expr.collect] at h
      cases h
  | rows source =>
    rw [RowsSource.sites_fill hfill] at h
    cases h
  | keyMatch columns base =>
    cases hfill
    exact sites_keyMatch h

end Fragments

section Filled

variable {s : Schema} {c : Catalog} {columns clauses : Prop} {rules : List HoleRule}

/-- Holes are filled one layer at a time, from the inside out. -/
theorem carries_filling {subs : Substitution}
    (hfilled : ∀ rule ∈ rules, ∃ fragment, subs.find? rule.hole = some fragment ∧
      fragment.place = rule.action.place ∧ ∀ (scopes : Scopes),
        ∀ site ∈ fragment.collect (.sites c) scopes, site ∈ rule.action.sites s c scopes) {inner : HoleFiller} {depth : Nat}
    (h : inner.Carries c (Site.Settled s c columns clauses rules depth)
      (Site.Asked columns clauses)) :
    (HoleFiller.filling subs inner).Carries c (Site.Settled s c columns clauses rules (depth + 1))
      (Site.Asked columns clauses) := by
  have hhole : ∀ {place : Place} {scopes : Scopes} {id : HoleId},
      (Site.hole place scopes id).Settled s c columns clauses rules (depth + 1) →
        ∃ fragment, subs.find? id = some fragment ∧ fragment.place = place ∧
          ∀ site ∈ fragment.collect (.sites c) scopes, site.Settled s c columns clauses rules depth := by
    rintro place scopes id ⟨rule, hrule, rfl, rfl, hsites⟩
    obtain ⟨fragment, hfound, hplace, hsub⟩ := hfilled rule hrule
    exact ⟨fragment, hfound, hplace, fun site hsite => hsites site (hsub scopes site hsite)⟩
  exact {
    column := fun _ _ _ => id
    clause := fun _ => id
    expr := by
      intro scopes id hsettled
      obtain ⟨fragment, hfound, hplace, hsites⟩ := hhole hsettled
      cases fragment with
      | expr e =>
        simp only [HoleFiller.filling, hfound]
        exact e.related h.relates.toRelates hsites
      | order _ | assignments _ | rows _ => cases hplace
    order := by
      intro scopes id hsettled
      obtain ⟨fragment, hfound, hplace, hsites⟩ := hhole hsettled
      cases fragment with
      | order terms =>
        simp only [HoleFiller.filling, hfound]
        exact orderTerms_related h.relates.toRelates terms hsites
      | expr _ | assignments _ | rows _ => cases hplace
    assignments := by
      intro scopes id hsettled
      obtain ⟨fragment, hfound, hplace, hsites⟩ := hhole hsettled
      cases fragment with
      | assignments list =>
        simp only [HoleFiller.filling, hfound]
        exact assignments_related h.relates list hsites
      | expr _ | order _ | rows _ => cases hplace
    rows := by
      intro scopes id hsettled
      obtain ⟨fragment, hfound, hplace, hsites⟩ := hhole hsettled
      cases fragment with
      | rows data =>
        simp only [HoleFiller.filling, hfound]
        exact rows_related h.relates.toRelates data hsites
      | expr _ | order _ | assignments _ => cases hplace }

theorem carries_nested {subs : Substitution}
    (hfilled : ∀ rule ∈ rules, ∃ fragment, subs.find? rule.hole = some fragment ∧
      fragment.place = rule.action.place ∧ ∀ (scopes : Scopes),
        ∀ site ∈ fragment.collect (.sites c) scopes, site ∈ rule.action.sites s c scopes) (depth : Nat) :
    (HoleFiller.nested subs depth).Carries c
      (Site.Settled s c columns clauses rules (depth + 1)) (Site.Asked columns clauses) := by
  have hkeeping : HoleFiller.keeping.Carries c (Site.Settled s c columns clauses rules 0)
      (Site.Asked columns clauses) := {
    column := fun _ _ _ => id
    clause := fun _ => id
    expr := fun _ _ h => h.elim
    order := fun _ _ h => h.elim
    assignments := fun _ _ h => h.elim
    rows := fun _ _ h => h.elim }
  induction depth with
  | zero => exact carries_filling hfilled hkeeping
  | succ depth ih => exact carries_filling hfilled ih

/-- What rules put into their holes leaves nothing else to ask of settled sites. -/
theorem Binding.Binds.carries {args : Value} {b : Binding} (hb : b.Binds s args rules)
    (hfits : ∀ rule ∈ rules, rule.action.Fits) :
    (HoleFiller.ofSubstitution b.subs).Carries c
      (Site.Settled s c columns clauses rules (rules.length + 1)) (Site.Asked columns clauses) := by
  have hfilled : ∀ rule ∈ rules, ∃ fragment, b.subs.find? rule.hole = some fragment ∧
      fragment.place = rule.action.place ∧ ∀ (scopes : Scopes),
        ∀ site ∈ fragment.collect (.sites c) scopes, site ∈ rule.action.sites s c scopes := by
    intro rule hrule
    obtain ⟨f, hf, hfound⟩ := hb.filled rule hrule
    exact ⟨f.fragment, hfound, (HoleRule.fill_serves (hfits rule hrule) hf).place,
      fun scopes site hsite => HoleRule.sites_fill hf hsite⟩
  have hsize : b.subs.size = rules.length := by
    rw [Substitution.size, ← List.length_map Prod.fst, hb.holes, List.length_map]
  rw [← hsize]
  exact carries_nested hfilled b.subs.size

/-- Binding fills a settled batch with fragments that leave nothing else to ask. -/
theorem Plan.asked_filled {plan : Plan} (hplan : plan.Sound) {args : Value} {subs : Substitution}
    {params : Params} (hsubs : plan.substitution s args = .ok (subs, params))
    (hsettled : ∀ st ∈ plan.batch, ∀ site ∈ st.collect (.sites c) [],
      site.Settled s c columns clauses plan.rules plan.rules.length) :
    ∀ st ∈ plan.batch.filled subs, AllAsked columns clauses (st.collect (.sites c) []) := by
  obtain ⟨b, _, hb, _, _, _, rfl, _⟩ := Plan.binds_of_substitution hplan hsubs
  intro st hst
  obtain ⟨before, hbefore, rfl⟩ := List.mem_map.mp hst
  exact Statement.related (hb.carries hplan.fits).relates before
    fun site hsite => (hsettled before hbefore site hsite).deeper

end Filled

/-- The batch with what the arguments put into its holes: the statement that is written out. -/
def Compiled.resolved (c : Compiled) (args : Value) : Except BindFailure Batch := do
  let (subs, _) ← c.plan.substitution c.schema args
  return c.plan.batch.filled subs

/-- A bound statement is the text of the resolved one. -/
theorem Compiled.resolved_of_bind {c : Compiled} {args : Value} {bound : Bound}
    (h : c.bind args = .ok bound) : ∃ subs params batch,
      c.plan.substitution c.schema args = .ok (subs, params) ∧ c.resolved args = .ok batch ∧
        batch = c.plan.batch.filled subs ∧ batch.render .empty = .ok bound.sql := by
  unfold Compiled.bind Plan.bind at h
  have hbound : ∀ {x : Except BindFailure Bound}, x = .ok bound →
      x = (do
        let (subs, params) ← c.plan.substitution c.schema args
        let sql ← faulty (c.plan.batch.render subs)
        return ⟨sql, params⟩) → ∃ subs params batch,
      c.plan.substitution c.schema args = .ok (subs, params) ∧ c.resolved args = .ok batch ∧
        batch = c.plan.batch.filled subs ∧ batch.render .empty = .ok bound.sql := by
    intro x hx hdo
    rw [hdo] at hx
    obtain ⟨⟨subs, params⟩, hsubs, hx⟩ := except_bind_ok.mp hx
    obtain ⟨sql, hsql, hpure⟩ := except_bind_ok.mp hx
    cases hpure
    refine ⟨subs, params, c.plan.batch.filled subs, hsubs, ?_, rfl, ?_⟩
    · rw [Compiled.resolved, hsubs]
      rfl
    · cases hrender : c.plan.batch.render subs with
      | error fault =>
        rw [hrender] at hsql
        cases hsql
      | ok text =>
        rw [hrender] at hsql
        cases hsql
        exact Batch.render_filled hrender
  split at h
  · cases h
  · exact hbound h rfl

/-- A bound query is the text of the query with its holes filled. -/
theorem Compiled.query_of_bind {c : Compiled} {query : Query} (hbatch : c.plan.batch = [.query query])
    {args : Value} {bound : Bound} (h : c.bind args = .ok bound) : ∃ subs params,
      c.plan.substitution c.schema args = .ok (subs, params) ∧
      c.resolved args = .ok [.query (query.filled (.ofSubstitution subs))] ∧
      Batch.render [.query (query.filled (.ofSubstitution subs))] .empty = .ok bound.sql := by
  obtain ⟨subs, params, batch, hsubs, hresolved, hfilled, hrender⟩ := Compiled.resolved_of_bind h
  have hquery : batch = [.query (query.filled (.ofSubstitution subs))] := by
    rw [hfilled, hbatch]
    rfl
  rw [hquery] at hresolved hrender
  exact ⟨subs, params, hsubs, hresolved, hrender⟩

namespace Sql.Batch

/-- Every column that is read through an alias is one of the row source that the alias stands for: one
of the query itself, or else of the nearest query around that has the alias. -/
def WellScoped (batch : Batch) (s : Schema) : Prop :=
  ∀ scopes aliasName name, Site.column scopes aliasName name ∈ batch.sites s →
    scopes.Resolve aliasName name

/-- No FROM clause lists two aliases that agree up to case. -/
def AliasesApart (batch : Batch) (s : Schema) : Prop :=
  ∀ aliases, Site.clause aliases ∈ batch.sites s → Apart aliases

end Sql.Batch

namespace Compiler

variable {c : Compiler} {spec : QuerySpec} {compiled : Compiled}
  {declarations : List TableDeclaration} {schema : Schema} {setup : CompilerSetup}

/-- The sites of a compiled statement are settled if no name that planning makes up is a relation's. -/
theorem settled_of_compile (columns clauses : Prop)
    (hschema : Schema.build declarations = .ok schema) (hsetup : setup.schema = some schema)
    (hbuild : setup.build = .ok c) (hcompile : c.compile spec = .ok compiled)
    (hnames : ∀ p : Planner, Plan.PlannedBy c.resolver c.options.keyWindowAlias spec p →
      (columns → p.ByFilter) ∧ p.Unmistaken columns clauses compiled.plan.relations)
    (batch : Batch) :
    ∀ st ∈ compiled.plan.batch, ∀ site ∈ st.collect (.sites (batch.catalog compiled.schema)) [],
      site.Settled compiled.schema (batch.catalog compiled.schema) columns clauses
        compiled.plan.rules compiled.plan.rules.length := by
  obtain ⟨p, d, hp, hrun, hrules, _, htables, hs, hkeyed, htable⟩ :=
    planner_of_compile hschema hsetup hbuild hcompile
  have hc : (batch.catalog compiled.schema).Knows p.schema := by
    rw [htables]
    exact (htables ▸ hkeyed).catalog_knows
  obtain ⟨hfilter, hother⟩ := hnames p hp
  have hsettled := Planner.statements_settle hs hkeyed hc htable hrun hfilter hother
  rw [htables] at hsettled
  rw [hrules]
  exact hsettled

/-- What is asked of the sites of a settled statement is true after binding. -/
theorem asked_of_bind {columns clauses : Prop} (hcompile : c.compile spec = .ok compiled)
    (hsettled : ∀ batch : Batch, ∀ st ∈ compiled.plan.batch,
      ∀ site ∈ st.collect (.sites (batch.catalog compiled.schema)) [],
        site.Settled compiled.schema (batch.catalog compiled.schema) columns clauses
          compiled.plan.rules compiled.plan.rules.length)
    {args : Value} {bound : Bound} (hbind : compiled.bind args = .ok bound) :
    ∃ batch, compiled.resolved args = .ok batch ∧ batch.render .empty = .ok bound.sql ∧
      ∀ site ∈ batch.sites compiled.schema, site.Asked columns clauses := by
  obtain ⟨subs, params, batch, hsubs, hresolved, hbatch, hrender⟩ := Compiled.resolved_of_bind hbind
  refine ⟨batch, hresolved, hrender, ?_⟩
  intro site hsite
  obtain ⟨st, hst, hsite⟩ := List.mem_flatMap.mp hsite
  rw [hbatch] at hst
  exact Plan.asked_filled (Plan.ofSpec_sound (ofSpec_of_compile hcompile).2) hsubs (hsettled batch)
    st hst site hsite

/-- People and their pets. -/
def kennelDeclarations : List TableDeclaration := [
  ⟨"Person", .table, [⟨"Id", .integer 4, false, true, false⟩], []⟩,
  ⟨"Pet", .table, [⟨"Id", .integer 4, false, true, false⟩,
    ⟨"PersonId", .integer 4, false, false, false⟩, ⟨"Name", .text, false, false, false⟩],
    [⟨["PersonId"], "Person", ["Id"]⟩]⟩]

def kennelShapes : Shapes := .ofList [
  ⟨"Person", none, [⟨"Id", .i32, false, default⟩, ⟨"Pets", .list (.shape "Pet"), false, default⟩]⟩,
  ⟨"Pet", none, [⟨"Id", .i32, false, default⟩]⟩,
  ⟨"Called", some "Pet", [⟨"Name", .text, false, default⟩]⟩]

/-- A page of people by the name of a pet, which is given twice: below a nested argument, and for the
relation that the result has. -/
def kennelPage : SpecDeclaration where
  operation := .select
  table := some "Person"
  arguments := [⟨"pet", .shape "Called", false, default⟩,
    ⟨"Name", .text, false, { (default : Directives) with join := some ⟨["Pets"]⟩ }⟩,
    ⟨"Take", .i32, false, { (default : Directives) with fetch := true }⟩]
  returns := [.many "Person"]

def kennelArguments : Value :=
  .record [("pet", .record [("Name", .text "Rex")]), ("Name", .text "Rex"), ("Take", .i32 5)]

/-- The page of people is bound, and the names that planning makes up are no relation's. -/
def kennelTest (c : Compiler) (spec : QuerySpec) (compiled : Compiled) : Bool :=
  spec.operation == .select &&
  ((compiled.bind kennelArguments).toOption.any fun _ => true) &&
  ((Arguments.classify spec.operation spec.arguments.children).toOption.any fun _ => true) &&
  ((Plan.targetTable c.resolver spec).toOption.any fun table =>
    !"__exists".toList.isPrefixOf (lowerAscii table.name).toList) &&
  compiled.plan.relations.all fun found =>
    (found.visits.all fun v => (found.manySteps v).all fun u => !u.label.isEmbedded) &&
      found.all.all fun r => !"__exists".toList.isPrefixOf (lowerAscii r.aliasName).toList &&
        !sameName c.options.keyWindowAlias r.aliasName

/-- Selects, deletes and updates that assign from arguments are well scoped after binding, whatever
the arguments, if no relation is named like the table of a subquery, and none like the window where
there is one. -/
theorem bind_wellScoped (hschema : Schema.build declarations = .ok schema)
    (hsetup : setup.schema = some schema) (hbuild : setup.build = .ok c)
    (hcompile : c.compile spec = .ok compiled) {arguments : Arguments} {target : Table}
    (harguments : Arguments.classify spec.operation spec.arguments.children = .ok arguments)
    (htarget : Plan.targetTable c.resolver spec = .ok target)
    (hfilter : spec.operation = .select ∨ spec.operation = .delete ∨
      spec.operation = .update ∧ arguments.set ≠ [])
    (hexists : ∀ k, sameName (existsAlias k) target.name = false ∧
      ∀ found, compiled.plan.relations = some found → ∀ r ∈ found.all,
        sameName (existsAlias k) r.aliasName = false)
    (hwindow : arguments.isPaged = true → ∀ found, compiled.plan.relations = some found →
      found.hasJoins = true → ∀ r ∈ found.all,
        sameName c.options.keyWindowAlias r.aliasName = false)
    {args : Value} {bound : Bound} (hbind : compiled.bind args = .ok bound) :
    ∃ batch, compiled.resolved args = .ok batch ∧ batch.render .empty = .ok bound.sql ∧
      batch.WellScoped compiled.schema := by
  have hsettled := settled_of_compile True False hschema hsetup hbuild hcompile
    (by
      intro p hp
      have htable := hp.target
      have hclassify := hp.arguments
      rw [htarget] at htable
      rw [harguments] at hclassify
      cases htable
      cases hclassify
      refine ⟨fun _ => ?_, ?_⟩
      · rw [Planner.ByFilter, hp.operation]
        exact hfilter
      · exact {
          target := fun _ k => (hexists k).1
          exists_ := fun _ found hfound r hr k => (hexists k).2 found hfound r hr
          window := fun _ hpaged found hfound hjoins r hr => by
            rw [hp.windowAlias]
            exact hwindow hpaged found hfound hjoins r hr
          lookup := False.elim
          flat := False.elim })
  obtain ⟨batch, hresolved, hrender, hasked⟩ := asked_of_bind hcompile hsettled hbind
  exact ⟨batch, hresolved, hrender, fun scopes aliasName name hsite => hasked _ hsite trivial⟩

/-- The page of people is well scoped. -/
theorem bind_wellScoped_kennel :
    ∃ schema spec compiled bound, Schema.build kennelDeclarations = .ok schema ∧
      kennelPage.build kennelShapes = .ok spec ∧
      (⟨schema, default, .exact⟩ : Compiler).compile spec = .ok compiled ∧
      compiled.bind kennelArguments = .ok bound ∧
      ∃ batch, compiled.resolved kennelArguments = .ok batch ∧
        batch.render .empty = .ok bound.sql ∧ batch.WellScoped compiled.schema := by
  obtain ⟨schema, spec, compiled, hschema, hspec, hcompile, htest⟩ :
      ∃ schema spec compiled, Schema.build kennelDeclarations = .ok schema ∧
        kennelPage.build kennelShapes = .ok spec ∧
        (⟨schema, default, .exact⟩ : Compiler).compile spec = .ok compiled ∧
        kennelTest ⟨schema, default, .exact⟩ spec compiled = true :=
    exists_compiled (by decide +kernel)
  simp only [kennelTest, Bool.and_eq_true, beq_iff_eq] at htest
  obtain ⟨⟨⟨⟨hselect, hbinds⟩, hclassifies⟩, htargets⟩, hrelations⟩ := htest
  obtain ⟨bound, hbind, _⟩ := exists_ok_of_any hbinds
  obtain ⟨arguments, harguments, _⟩ := exists_ok_of_any hclassifies
  obtain ⟨target, htarget, hstart⟩ := exists_ok_of_any htargets
  simp only [Option.all_eq_true, List.all_eq_true, Bool.and_eq_true, Bool.not_eq_true']
    at hrelations hstart
  have hbuild : (CompilerSetup.mk (some schema) default (some .exact)).build =
      .ok ⟨schema, default, .exact⟩ := rfl
  have hscoped := bind_wellScoped hschema rfl hbuild hcompile harguments htarget (.inl hselect)
    (fun k => ⟨sameName_existsAlias_of_start hstart k, fun found hfound r hr =>
      sameName_existsAlias_of_start ((hrelations found hfound).2 r hr).1 k⟩)
    (fun _ found hfound _ r hr => ((hrelations found hfound).2 r hr).2) hbind
  exact ⟨schema, spec, compiled, bound, hschema, hspec, hcompile, hbind, hscoped⟩

/-- A table named like that of the first subquery, and the pets that it owns. -/
def numberedDeclarations : List TableDeclaration := [
  ⟨"__exists0", .table, [⟨"Id", .integer 4, false, true, false⟩], []⟩,
  ⟨"Pet", .table, [⟨"Code", .integer 4, false, true, false⟩,
    ⟨"OwnerId", .integer 4, false, false, false⟩, ⟨"Name", .text, false, false, false⟩],
    [⟨["OwnerId"], "__exists0", ["Id"]⟩]⟩]

def numberedShapes : Shapes := .ofList [
  ⟨"Owner", some "__exists0", [⟨"Id", .i32, false, default⟩]⟩,
  ⟨"Pet", none, [⟨"Name", .text, false, default⟩]⟩]

/-- Owners by the name of a pet. -/
def numberedSearch : SpecDeclaration where
  operation := .select
  table := some "__exists0"
  arguments := [⟨"pet", .shape "Pet", false, default⟩]
  returns := [.many "Owner"]

def numberedArguments : Value := .record [("pet", .record [("Name", .text "Rex")])]

/-- The row sources of the subquery and of the query around it. -/
def numberedScopes : Scopes :=
  [[⟨"__exists0", ["Code", "OwnerId", "Name"]⟩], [⟨"__exists0", ["Id"]⟩]]

/-- The search is bound, and reads the owner's key in these scopes. -/
def numberedTest (_ : Compiler) (_ : QuerySpec) (compiled : Compiled) : Bool :=
  ((compiled.bind numberedArguments).toOption.any fun _ => true) &&
  (compiled.resolved numberedArguments).toOption.any fun batch =>
    decide (.column numberedScopes "__exists0" "Id" ∈ batch.sites compiled.schema)

/-- The subquery's own table hides the one around it, whose key is read from the pets instead. -/
theorem misread_numbered :
    ∃ schema spec compiled bound batch, Schema.build numberedDeclarations = .ok schema ∧
      numberedSearch.build numberedShapes = .ok spec ∧
      (⟨schema, default, .exact⟩ : Compiler).compile spec = .ok compiled ∧
      compiled.bind numberedArguments = .ok bound ∧
      compiled.resolved numberedArguments = .ok batch ∧ ¬batch.WellScoped compiled.schema := by
  obtain ⟨schema, spec, compiled, hschema, hspec, hcompile, htest⟩ :
      ∃ schema spec compiled, Schema.build numberedDeclarations = .ok schema ∧
        numberedSearch.build numberedShapes = .ok spec ∧
        (⟨schema, default, .exact⟩ : Compiler).compile spec = .ok compiled ∧
        numberedTest ⟨schema, default, .exact⟩ spec compiled = true :=
    exists_compiled (by decide +kernel)
  rw [numberedTest, Bool.and_eq_true] at htest
  obtain ⟨bound, hbind, _⟩ := exists_ok_of_any htest.1
  obtain ⟨batch, hresolved, hsite⟩ := exists_ok_of_any htest.2
  refine ⟨schema, spec, compiled, bound, batch, hschema, hspec, hcompile, hbind, hresolved, ?_⟩
  intro hscoped
  have hread := hscoped numberedScopes "__exists0" "Id" (of_decide_eq_true hsite)
  rw [numberedScopes, Scopes.Resolve, if_pos (by decide +kernel)] at hread
  have hid := hread _ List.mem_cons_self (sameName_self _)
  exact absurd hid (by decide)

/-- The filters of a select, and the relations that they are planned over in the end. -/
def FilteredBy (c : Compiler) (spec : QuerySpec) (relations : Relations) (filters : List Filter) :
    Prop :=
  ∃ p start joined d, Plan.PlannedBy c.resolver c.options.keyWindowAlias spec p ∧
    p.outputRelations = .ok start ∧
    (p.selectFilters start p.arguments.filters).run default = .ok ((filters, joined), d) ∧
    relations = joined.anchorKeys p.schema

/-- No FROM clause of a compiled statement lists an alias twice, before and after binding, if no
relation is named like the window where there is one or like the variable that rows are returned by,
and if nothing is embedded on the way to a collection that a page is filtered by. -/
theorem compile_aliasesApart (hschema : Schema.build declarations = .ok schema)
    (hsetup : setup.schema = some schema) (hbuild : setup.build = .ok c)
    (hcompile : c.compile spec = .ok compiled) {arguments : Arguments}
    (harguments : Arguments.classify spec.operation spec.arguments.children = .ok arguments)
    (hwindow : arguments.isPaged = true → ∀ found, compiled.plan.relations = some found →
      found.hasJoins = true → ∀ r ∈ found.all,
        sameName c.options.keyWindowAlias r.aliasName = false)
    (hlookup : spec.operation ≠ .select → ∀ found, compiled.plan.relations = some found →
      ∀ r ∈ found.all, sameName "__lookup" r.aliasName = false)
    (hflat : arguments.isPaged = true → ∀ found, compiled.plan.relations = some found →
      ∀ filters, c.FilteredBy spec found filters → Planner.FlatTo found filters) :
    compiled.plan.batch.AliasesApart compiled.schema ∧
      ∀ args bound, compiled.bind args = .ok bound →
        ∃ batch, compiled.resolved args = .ok batch ∧ batch.render .empty = .ok bound.sql ∧
          batch.AliasesApart compiled.schema := by
  have hsettled := settled_of_compile False True hschema hsetup hbuild hcompile
    (by
      intro p hp
      have hclassify := hp.arguments
      rw [harguments] at hclassify
      cases hclassify
      refine ⟨False.elim, ?_⟩
      exact {
        target := False.elim
        exists_ := False.elim
        window := fun _ hpaged found hfound hjoins r hr => by
          rw [hp.windowAlias]
          exact hwindow hpaged found hfound hjoins r hr
        lookup := fun _ hselect found hfound r hr =>
          hlookup (hp.operation ▸ hselect) found hfound r hr
        flat := fun _ hpaged found hfound filters between ⟨start, joined, hselects⟩ =>
          hflat hpaged found hfound filters ⟨p, start, joined, between, hp, hselects⟩ })
  constructor
  · intro aliases hsite
    obtain ⟨st, hst, hsite⟩ := List.mem_flatMap.mp hsite
    exact Site.settled_clause.mp (hsettled compiled.plan.batch st hst _ hsite) trivial
  · intro args bound hbind
    obtain ⟨batch, hresolved, hrender, hasked⟩ := asked_of_bind hcompile hsettled hbind
    exact ⟨batch, hresolved, hrender, fun aliases hsite => hasked _ hsite trivial⟩

/-- The page of people lists no alias twice. -/
theorem compile_aliasesApart_kennel :
    ∃ schema spec compiled, Schema.build kennelDeclarations = .ok schema ∧
      kennelPage.build kennelShapes = .ok spec ∧
      (⟨schema, default, .exact⟩ : Compiler).compile spec = .ok compiled ∧
      compiled.plan.batch.AliasesApart compiled.schema ∧
      ∃ bound batch, compiled.bind kennelArguments = .ok bound ∧
        compiled.resolved kennelArguments = .ok batch ∧ batch.render .empty = .ok bound.sql ∧
        batch.AliasesApart compiled.schema := by
  obtain ⟨schema, spec, compiled, hschema, hspec, hcompile, htest⟩ :
      ∃ schema spec compiled, Schema.build kennelDeclarations = .ok schema ∧
        kennelPage.build kennelShapes = .ok spec ∧
        (⟨schema, default, .exact⟩ : Compiler).compile spec = .ok compiled ∧
        kennelTest ⟨schema, default, .exact⟩ spec compiled = true :=
    exists_compiled (by decide +kernel)
  simp only [kennelTest, Bool.and_eq_true, beq_iff_eq] at htest
  obtain ⟨⟨⟨⟨hselect, hbinds⟩, hclassifies⟩, _⟩, hrelations⟩ := htest
  obtain ⟨bound, hbind, _⟩ := exists_ok_of_any hbinds
  obtain ⟨arguments, harguments, _⟩ := exists_ok_of_any hclassifies
  simp only [Option.all_eq_true, List.all_eq_true, Bool.and_eq_true, Bool.not_eq_true'] at hrelations
  have hbuild : (CompilerSetup.mk (some schema) default (some .exact)).build =
      .ok ⟨schema, default, .exact⟩ := rfl
  have hapart := compile_aliasesApart hschema rfl hbuild hcompile harguments
    (fun _ found hfound _ r hr => ((hrelations found hfound).2 r hr).2)
    (fun hnot => absurd hselect hnot)
    (fun _ found hfound _ _ _ _ v hv _ => (hrelations found hfound).1 v hv)
  obtain ⟨batch, hresolved, hrender, hbatch⟩ := hapart.2 kennelArguments bound hbind
  exact ⟨schema, spec, compiled, hschema, hspec, hcompile, hapart.1, bound, batch, hbind, hresolved,
    hrender, hbatch⟩

/-- Pets with a tag that is a place of its own in the result, but no table. -/
def tagShapes : Shapes := .ofList [
  ⟨"Person", none, [⟨"Id", .i32, false, default⟩, ⟨"Pets", .list (.shape "Pet"), false, default⟩]⟩,
  ⟨"Pet", none, [⟨"Id", .i32, false, default⟩, ⟨"Tag", .shape "Tag", false, default⟩]⟩,
  ⟨"Tag", none, [⟨"Name", .text, false, default⟩]⟩]

/-- A page of people by what the tag of a pet says. -/
def tagPage : SpecDeclaration where
  operation := .select
  table := some "Person"
  arguments := [
    ⟨"Name", .text, false, { (default : Directives) with join := some ⟨["Pets", "Tag"]⟩ }⟩,
    ⟨"Take", .i32, false, { (default : Directives) with fetch := true }⟩]
  returns := [.many "Person"]

def tagArguments : Value := .record [("Name", .text "Rex"), ("Take", .i32 5)]

/-- The page is bound, and one of its FROM clauses lists an alias twice, before and after. -/
def tagTest (_ : Compiler) (_ : QuerySpec) (compiled : Compiled) : Bool :=
  ((compiled.bind tagArguments).toOption.any fun _ => true) &&
  decide (.clause ["Pets", "Pets"] ∈ compiled.plan.batch.sites compiled.schema) &&
  (compiled.resolved tagArguments).toOption.any fun batch =>
    decide (.clause ["Pets", "Pets"] ∈ batch.sites compiled.schema)

/-- The subquery joins the place of the tag to the one above it, under the alias that they share. -/
theorem repeated_tag :
    ∃ schema spec compiled bound batch, Schema.build kennelDeclarations = .ok schema ∧
      tagPage.build tagShapes = .ok spec ∧
      (⟨schema, default, .exact⟩ : Compiler).compile spec = .ok compiled ∧
      compiled.bind tagArguments = .ok bound ∧
      compiled.resolved tagArguments = .ok batch ∧
      ¬compiled.plan.batch.AliasesApart compiled.schema ∧
      ¬batch.AliasesApart compiled.schema := by
  obtain ⟨schema, spec, compiled, hschema, hspec, hcompile, htest⟩ :
      ∃ schema spec compiled, Schema.build kennelDeclarations = .ok schema ∧
        tagPage.build tagShapes = .ok spec ∧
        (⟨schema, default, .exact⟩ : Compiler).compile spec = .ok compiled ∧
        tagTest ⟨schema, default, .exact⟩ spec compiled = true :=
    exists_compiled (by decide +kernel)
  simp only [tagTest, Bool.and_eq_true, decide_eq_true_eq] at htest
  obtain ⟨⟨hbinds, hplanned⟩, hresolves⟩ := htest
  obtain ⟨bound, hbind, _⟩ := exists_ok_of_any hbinds
  obtain ⟨batch, hresolved, hclause⟩ := exists_ok_of_any hresolves
  refine ⟨schema, spec, compiled, bound, batch, hschema, hspec, hcompile, hbind, hresolved, ?_, ?_⟩
  · intro hapart
    exact absurd (hapart _ hplanned) (by decide +kernel)
  · intro hapart
    exact absurd (hapart _ (of_decide_eq_true hclause)) (by decide +kernel)

end Compiler

end ShapeSql
