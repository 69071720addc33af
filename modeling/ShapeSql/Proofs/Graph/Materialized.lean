import ShapeSql.Proofs.Compiler
import ShapeSql.Proofs.Plan.Projection
import ShapeSql.Proofs.Relation.Columns

namespace ShapeSql

open Sql

/-- The steps of the paths that filters join along. -/
def FieldTree.joinSteps (arguments : List FieldTree) : List String :=
  arguments.flatMap fun t => (t.label.directives.join.map Path.steps).getD []

/-- Where the paths that filters join along agree with each other or with the output up to the case of
letters, they are spelled alike. -/
structure QuerySpec.JoinsSpelled (spec : QuerySpec) (output : FieldTree) : Prop where
  alike : ∀ step ∈ FieldTree.joinSteps spec.arguments.children,
    Spells (FieldTree.joinSteps spec.arguments.children) step
  output : output.SpelledLike (FieldTree.joinSteps spec.arguments.children)

instance (spec : QuerySpec) (output : FieldTree) : Decidable (spec.JoinsSpelled output) :=
  decidable_of_iff ((∀ step ∈ FieldTree.joinSteps spec.arguments.children,
      Spells (FieldTree.joinSteps spec.arguments.children) step) ∧
      output.SpelledLike (FieldTree.joinSteps spec.arguments.children))
    ⟨fun h => ⟨h.1, h.2⟩, fun h => ⟨h.alike, h.output⟩⟩

namespace Planner

variable {p : Planner} {d d' : Draft}

/-- What is returned is read over the relations of the output, with what filters join to them. -/
def ReadsOver (p : Planner) (output : FieldTree) (relations : Relations) : Prop :=
  ∃ start, p.resolver.resolve p.table output = .ok start ∧
    (relations = start ∨ ∃ d d' filters joined,
      (p.selectFilters start p.arguments.filters).run d = .ok ((filters, joined), d') ∧
        relations = joined.anchorKeys p.schema)

theorem ReadsOver.nested {output : FieldTree} {relations : Relations}
    (h : p.ReadsOver output relations) (hrooted : output.Rooted .root) : relations.Nested := by
  obtain ⟨start, hstart, rfl | ⟨_, _, _, joined, hfilters, rfl⟩⟩ := h
  · exact Resolver.resolve_nested hrooted hstart
  · exact (selectFilters_nested (Resolver.resolve_nested hrooted hstart) hfilters).anchorKeys _

/-- What is joined and anchored leaves the places of the output where they are. -/
theorem ReadsOver.kept {output : FieldTree} {relations : Relations}
    (h : p.ReadsOver output relations) :
    ∃ start, p.resolver.resolve p.table output = .ok start ∧ Kept start.tree relations.tree := by
  obtain ⟨start, hstart, rfl | ⟨_, _, _, joined, hfilters, rfl⟩⟩ := h
  · exact ⟨_, hstart, kept_refl _⟩
  · refine ⟨start, hstart, kept_trans _ ?_ (kept_anchorKeys p.schema joined.tree)⟩
    refine selectFilters_joined (P := fun own => Kept start.tree own.tree) ?_ (kept_refl _) hfilters
    intro own extra after path hown _ _ hmerged _ _
    exact kept_trans _ hown (Relations.merged_keeps hmerged)

/-- The steps that a filter joins along are declared. -/
theorem mem_joinSteps {spec : QuerySpec} {path : Path} {step : String}
    (harguments : Arguments.classify spec.operation spec.arguments.children = .ok p.arguments)
    (hpath : ∃ argument ∈ p.arguments.filters, argument.label.directives.join = some path)
    (hstep : step ∈ path.steps) : step ∈ FieldTree.joinSteps spec.arguments.children := by
  obtain ⟨argument, hargument, hjoin⟩ := hpath
  have hdeclared := Arguments.mem_of_classify harguments argument hargument
  refine List.mem_flatMap.mpr ⟨argument, hdeclared, ?_⟩
  rw [hjoin]
  exact hstep

/-- Places are told apart by their names, if the fields of the output are, and if the paths that filters
join along are spelled alike. -/
theorem ReadsOver.spelledOut {output : FieldTree} {relations : Relations} {spec : QuerySpec}
    (h : p.ReadsOver output relations) (hrooted : output.Rooted .root) (hnames : output.NamesApart)
    (harguments : Arguments.classify spec.operation spec.arguments.children = .ok p.arguments)
    (hjoins : spec.JoinsSpelled output) :
    relations.SpelledOut (FieldTree.joinSteps spec.arguments.children) := by
  obtain ⟨start, hstart, hrest⟩ := h
  have hspelled := Resolver.resolve_spelledOut hrooted hnames hjoins.output hstart
  rcases hrest with rfl | ⟨_, _, _, joined, hfilters, rfl⟩
  · exact hspelled
  · refine Relations.SpelledOut.anchorKeys (selectFilters_joined ?_ hspelled hfilters) p.schema
    intro own extra after path hown hpath hextra hmerged hbefore hafter
    exact hown.merged hjoins.alike (fun name hname => mem_joinSteps harguments hpath hname) hextra
      hmerged hbefore hafter

/-- The places project columns of names of their own, and plain ones if the names of fields, keys and
joined paths are. -/
theorem ReadsOver.tidy {plain : Prop} (hkeys : plain → p.schema.KeysPlain)
    {output : FieldTree} {relations : Relations} {spec : QuerySpec} (h : p.ReadsOver output relations)
    (hrooted : output.Rooted .root) (hnames : plain → output.PlainNames)
    (harguments : Arguments.classify spec.operation spec.arguments.children = .ok p.arguments)
    (hjoins : plain → ∀ step ∈ FieldTree.joinSteps spec.arguments.children, Undotted step) :
    relations.Tidy plain p.schema := by
  obtain ⟨start, hstart, hrest⟩ := h
  have htidy := Resolver.resolve_tidy hkeys hrooted hnames hstart
  rcases hrest with rfl | ⟨_, _, _, joined, hfilters, rfl⟩
  · exact htidy
  · refine Relations.Tidy.anchorKeys hkeys (selectFilters_joined ?_ htidy hfilters)
    intro own extra after path hown hpath hextra hmerged _ _
    refine hown.merged (Resolver.resolvePath_tidy hkeys (fun hplain step hstep => ?_) hextra) hmerged
    exact hjoins hplain step (mem_joinSteps harguments hpath hstep)

/-- The fields of the output stand at the root of the relations. -/
theorem ReadsOver.hosted (hs : p.schema.Sound) (hkeyed : p.schema.Keyed)
    (htable : p.table ∈ p.schema.tables) {output : FieldTree} (hnames : output.NamesApart)
    {relations : Relations} (h : p.ReadsOver output relations) :
    HostedAll p.resolver relations.root relations.tree.children output.children := by
  obtain ⟨⟨⟨root, kids⟩, supply⟩, hstart, hkept⟩ := h.kept
  exact hostedAll_mono output.children hkept.1 hkept.2
    (Resolver.resolve_hosted hs hkeyed htable hnames hstart)

theorem ReadsOver.root_path {output : FieldTree} {relations : Relations}
    (h : p.ReadsOver output relations) : relations.root.path = .root := by
  obtain ⟨⟨⟨root, kids⟩, supply⟩, hstart, hkept⟩ := h.kept
  exact hkept.1.path.trans (Resolver.resolve_root_path hstart)

/-- A plan for entities ends in a query that selects what the relations of the result project. -/
theorem statements_returned {output : FieldTree} (houtput : p.output = some output)
    (hkind : p.outputKind = .one ∨ p.outputKind = .many)
    (hallows : p.operation.allows p.outputKind = true) {batch : Batch} {relations : Option Relations}
    (hrun : (Plan.statements p).run d = .ok ((batch, relations), d')) :
    ∃ before query found, batch = before ++ [.query query] ∧ relations = some found ∧
      query.projection = found.all.flatMap (Relation.selected p.schema) ∧
      p.ReadsOver output found := by
  have hcount : p.outputKind ≠ .count := by
    rcases hkind with hone | hmany
    · rw [hone]
      nofun
    · rw [hmany]
      nofun
  have hreturns : p.returnsRows = true := decide_eq_true hkind
  have hrefused : p.operation.allows .one = false → p.operation.allows .many = false → False := by
    intro hone hmany
    rcases hkind with hkind | hkind
    all_goals simp [hkind, hone, hmany] at hallows
  cases stated hrun with
  | select _ hselect =>
    obtain ⟨start, filters, joined, _, between, _, hstart, hfilters, hanchored, _⟩ :=
      p.select_inv hselect
    unfold outputRelations at hstart
    rw [houtput] at hstart
    exact ⟨[], _, _, rfl, rfl, select_projection hcount hselect, start, hstart,
      Or.inr ⟨_, _, filters, joined, hfilters, hanchored⟩⟩
  | write _ hwrite =>
    obtain ⟨before, query, found, hreturning, rfl, rfl⟩ := p.write_returns hreturns houtput hwrite
    obtain ⟨start, hstart, hpure⟩ := except_bind_ok.mp hreturning
    cases hpure
    exact ⟨before, _, _, rfl, rfl, projection_projectAll p _ _, _, hstart, Or.inl rfl⟩
  | update hoperation | delete hoperation =>
    rw [hoperation] at hrefused
    exact (hrefused rfl rfl).elim

end Planner

/-- A compiled statement that returns entities ends in a query, which selects what the relations of its
plan project; over these its rows are materialized. -/
theorem Compiler.returned_of_compile {declaration : SpecDeclaration} {shapes : Shapes}
    {spec : QuerySpec} {c : Compiler} {compiled : Compiled}
    (hspec : declaration.build shapes = .ok spec) (hcompile : c.compile spec = .ok compiled)
    (hkind : spec.outputKind = .one ∨ spec.outputKind = .many) :
    ∃ (p : Planner) (output : FieldTree) (before : Batch) (query : Query) (relations : Relations),
      p.resolver = c.resolver ∧ p.table ∈ c.schema.tables ∧
      Arguments.classify spec.operation spec.arguments.children = .ok p.arguments ∧
      spec.output = some output ∧ output.Rooted .root ∧
      compiled.plan.batch = before ++ [.query query] ∧
      compiled.plan.relations = some relations ∧
      query.projection = relations.all.flatMap (Relation.selected c.schema) ∧
      p.ReadsOver output relations ∧
      compiled.materializer =
        some (.ofRelations c.schema relations (some output) spec.outputKind) := by
  obtain ⟨plan, hplan, hcompiled⟩ := except_bind_ok.mp hcompile
  cases hcompiled
  obtain ⟨p, d, hp, hrun, _⟩ := Plan.ofSpec_planner hplan
  obtain ⟨output, houtput, hrooted⟩ : ∃ output, spec.output = some output ∧ output.Rooted .root := by
    rcases SpecDeclaration.output_cases hspec with hsome | ⟨_, hone, hmany⟩
    · exact hsome
    · exact absurd hkind (not_or.mpr ⟨hone, hmany⟩)
  have hallows : p.operation.allows p.outputKind = true := by
    rw [hp.operation, hp.outputKind]
    exact Plan.allows_of_ofSpec hplan
  obtain ⟨before, query, relations, hbatch, hrelations, hprojection, hreads⟩ :=
    Planner.statements_returned (hp.output.trans houtput) (hp.outputKind ▸ hkind) hallows hrun
  have hschema : p.schema = c.schema := by
    rw [Planner.schema, hp.resolver]
    rfl
  refine ⟨p, output, before, query, relations, hp.resolver, ?_, hp.arguments, houtput, hrooted, hbatch,
    hrelations, hschema ▸ hprojection, hreads, ?_⟩
  · exact Plan.mem_of_targetTable hp.target
  · unfold Compiler.materializer?
    rcases hkind with hone | hmany
    · rw [hone, hrelations, houtput]
      rfl
    · rw [hmany, hrelations, houtput]
      rfl

end ShapeSql
