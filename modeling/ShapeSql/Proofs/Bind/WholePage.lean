import ShapeSql.Proofs.Bind.Ignored
import ShapeSql.Proofs.Bind.Prefix
import ShapeSql.Proofs.Sql.Literal
import ShapeSql.Proofs.Sql.Mentioned

/-!
Pages that leave nothing out. A page that skips nothing and is large enough for all roots returns the
rows of the statement without the page, wherever those have a row of every collection that is filtered.
The window asks for such a row by the condition alone, so where the condition is true without a row, as
it is when its argument is absent and may be ignored, a root without one is left out of the page.
-/

namespace ShapeSql

open Sql Planning

theorem Sql.Site.Asked.closed {site : Site} (h : site.Asked True False) : site.Closed := by
  cases site with
  | column _ _ _ => exact h trivial
  | clause _ => trivial
  | hole _ _ _ => exact h.elim

namespace Planner

variable {p : Planner} {d : Draft} {b : Binding} {args : Value} {w : World} {params : Record}
  {relations : Relations} {filters : List Filter}

section Conditions

/-- The bound parameters are the same on both sides as far as the draft knows them: those that its rules
bring, and those that it declares. -/
def SameBound (d : Draft) (b : Binding) (bound params : Record) : Prop :=
  ∀ name, (name ∈ b.added.names ∨ ∃ q ∈ d.params, q.name = name) →
    bound.getExact? name = params.getExact? name

/-- A filled condition mentions the parameters of its draft. -/
theorem agreeOn_filled (hd : d.Sound) (hb : b.Binds p.schema args d.rules) {e : Expr}
    (he : d.Fills (e.collect .leaves ())) (hsame : SameBound d b w.params params) :
    w.AgreeOn params ((e.filled (.ofSubstitution b.subs)).collect .leaves ()) := by
  intro name hname
  obtain ⟨l, hl, hmentions⟩ :=
    e.related (HoleFiller.mentionsOnly_nested b.subs b.subs.size).relates name hname
  apply hsame
  rcases hb.mentions_below hd.layered hd.fits hmentions (he l hl) with
    hadded | ⟨rule, hrule, _, _, hparam, _⟩
  · exact .inl hadded
  · obtain ⟨q, hq, hqname, _⟩ := hd.declared rule hrule name hparam
    exact .inr ⟨q, hq, hqname⟩

/-- A condition that asks for one relation is as true for any tuples with the same cells of it. -/
theorem Narrow.holds_local {c : Catalog} {r : Relation} {e : Expr} (h : Narrow p c True False d r e)
    (hd : d.Sound) (hb : b.Binds p.schema args d.rules) (he : d.Fills (e.collect .leaves ()))
    (hsame : SameBound d b w.params params) {env env' : Env}
    (hcells : SameCells [r.aliasName] env env') :
    (e.filled (.ofSubstitution b.subs)).holds w env =
      (e.filled (.ofSubstitution b.subs)).holds (w.under params) env' := by
  let table := p.schema.table r.table
  let scope : List Offer := [⟨r.aliasName, table.columns.map Column.name⟩]
  have hreads : Scopes.Reads [scope] r.aliasName table :=
    reads_of_offer (List.nodup_singleton _) (List.mem_singleton.mpr rfl)
  have hclosed : AllClosed ((e.filled (.ofSubstitution b.subs)).collect (.sites c) [scope]) := by
    intro site hsite
    have hsettled := h [scope] fun _ => hreads
    have hasked := e.related (hb.carries hd.fits).relates.toRelates
      fun site hsite => (hsettled site hsite).deeper
    exact (hasked site hsite).closed
  have hagree : Env.Agree [scope] env env' := by
    intro aliasName name hresolve
    rw [Scopes.Resolve] at hresolve
    split at hresolve
    · rename_i hany
      obtain ⟨offer, hoffer, hname⟩ := List.any_eq_true.mp hany
      rw [List.mem_singleton.mp hoffer] at hname
      rw [← Env.cell_sameName hname, ← Env.cell_sameName hname]
      exact hcells _ (List.mem_singleton.mpr rfl) name
    · cases hresolve
  rw [Expr.holds, Expr.holds, Expr.truth_local _ hagree hclosed (agreeOn_filled hd hb he hsame)]

end Conditions

section Selects

variable {subs : Substitution} {order : List OrderItem} {offset fetch : Option Expr}

/-- Filters are planned with rules and parameters of their own. -/
theorem Selects.fills (h : p.Selects filters relations d) : d.Sound ∧ FillsAll d filters := by
  obtain ⟨start, joined, _, hfilters, _⟩ := h
  obtain ⟨hextends, hfills⟩ := p.selectFilters_extends Draft.sound_default hfilters
  exact ⟨hextends.sound, hfills⟩

/-- The filters of a select compare relations that it is planned over, if none of those is named like the
table of a subquery. -/
theorem Selects.aimed (h : p.Selects filters relations d) (hs : p.schema.Sound)
    (hkeyed : p.schema.Keyed) (htable : p.table ∈ p.schema.tables)
    (hexists : ∀ r ∈ relations.all, ∀ k, sameName (existsAlias k) r.aliasName = false) :
    relations.Wired p.schema p.table ∧ ∀ filter ∈ filters,
      Aimed p (Catalog.ofSchema p.schema) True False d relations filter := by
  obtain ⟨start, joined, hstart, hfilters, rfl⟩ := h
  exact selectFilters_aimed True False hs hkeyed hkeyed.catalog_knows htable Draft.sound_default
    (outputRelations_wired hs hkeyed htable hstart) hfilters fun _ r hr k _ => hexists r hr k

/-- Filters pass the same tuples where the parameters of their draft are the same. -/
theorem Selects.passing_under (h : p.Selects filters relations d)
    (haimed : ∀ filter ∈ filters, Aimed p (Catalog.ofSchema p.schema) True False d relations filter)
    (hb : b.Binds p.schema args d.rules) (hsame : SameBound d b w.params params) (t : Tuple) :
    passing (.ofSubstitution b.subs) (w.under params) filters t =
      passing (.ofSubstitution b.subs) w filters t := by
  obtain ⟨hd, hfills⟩ := h.fills
  apply passing_congr
  intro filter hfilter
  obtain ⟨v, _, hnarrow, _⟩ := haimed filter hfilter
  exact (hnarrow.holds_local hd hb (hfills filter hfilter) hsame fun _ _ _ => rfl).symm

/-- What is bound after the filters changes nothing about them. -/
theorem Selects.filled_append (h : p.Selects filters relations d) (hb : b.Binds p.schema args d.rules)
    (hsubs : ∃ later, subs = ⟨b.subs.fragments ++ later⟩) : ∀ filter ∈ filters,
      filter.expr.filled (.ofSubstitution subs) = filter.expr.filled (.ofSubstitution b.subs) := by
  obtain ⟨later, rfl⟩ := hsubs
  obtain ⟨hd, hfills⟩ := h.fills
  exact fun filter hfilter => hb.filled_append hd.fits later (hfills filter hfilter)

theorem Selects.passing_append (h : p.Selects filters relations d) (hb : b.Binds p.schema args d.rules)
    (hsubs : ∃ later, subs = ⟨b.subs.fragments ++ later⟩) (w : World) :
    passing (.ofSubstitution subs) w filters = passing (.ofSubstitution b.subs) w filters := by
  funext t
  apply passing_congr
  intro filter hfilter
  rw [h.filled_append hb hsubs filter hfilter]

/-- The bound of a page is the number that its argument gives. -/
theorem Bounds.count {argument : Option Field} {bound : Option Expr} (h : Bounds d argument bound)
    (hread : ∀ q ∈ d.params, q.transform = .required →
      w.params.getExact? q.name = some (args.entry q.path)) (f : HoleFiller) :
    pageCount? w (optionalFilled f bound) =
      argument.bind fun field => (args.entry field.path).count? := by
  cases argument with
  | none =>
    rw [Bounds] at h
    rw [h]
    rfl
  | some field =>
    obtain ⟨q, hq, rfl, hpath, hrequired⟩ := h
    rw [optionalFilled, Expr.filled, pageCount?, Option.bind_some, Option.bind_some, Expr.value,
      hread q hq hrequired, Option.getD_some, hpath]

/-- A page that leaves no root out returns what passes the filters, in the parameters of its draft. -/
theorem Selects.rows_page (h : p.Selects filters relations d) (hs : p.schema.Sound)
    (hkeyed : p.schema.Keyed) (htable : p.table ∈ p.schema.tables)
    (hexists : ∀ r ∈ relations.all, ∀ k, sameName (existsAlias k) r.aliasName = false)
    (hother : relations.hasJoins = true →
      ∀ r ∈ relations.all, sameName p.windowAlias r.aliasName = false)
    (hflat : FlatTo relations filters)
    (hb : b.Binds p.schema args d.rules) (hsubs : ∃ later, subs = ⟨b.subs.fragments ++ later⟩)
    (hdatabase : w.database.Keyed w.dialect p.schema) {query : Query}
    (hquery : relations.hasJoins = true ∧ p.table.hasKey = true ∧
        query = p.pageOutput relations filters order offset fetch ∨
      relations.hasJoins = false ∧
        query = { p.wholeOutput relations filters (order ++ p.keyTerms relations.root.aliasName) with
          offset, fetch })
    (hwhole : WholePage w (p.tableRows w relations.root).length
      (optionalFilled (.ofSubstitution subs) offset) (optionalFilled (.ofSubstitution subs) fetch))
    (hfound : ∀ row ∈ p.tableRows w relations.root, ∀ t ∈ p.outputTuples w relations row,
      passing (.ofSubstitution b.subs) w filters t = true → Found relations filters t) :
    ((query.filled (.ofSubstitution subs)).rows w []).Perm
      (p.allRows (.ofSubstitution b.subs) w relations filters) := by
  obtain ⟨hwired, haimed⟩ := h.aimed hs hkeyed htable hexists
  obtain ⟨hd, hfills⟩ := h.fills
  have hpassing := h.passing_append hb hsubs w
  have hall : p.allRows (.ofSubstitution subs) w relations filters =
      p.allRows (.ofSubstitution b.subs) w relations filters := by
    rw [allRows, allRows, hpassing]
  rw [← hall]
  rcases hquery with ⟨hjoins, hhasKey, rfl⟩ | ⟨hjoins, rfl⟩
  · have hcompares : ∀ filter ∈ filters, Compares relations (.ofSubstitution subs) w filter := by
      intro filter hfilter
      obtain ⟨v, hv, hnarrow, htarget⟩ := haimed filter hfilter
      refine ⟨v, hv, ?_, htarget⟩
      intro env env' hcells
      rw [h.filled_append hb hsubs filter hfilter]
      exact hnarrow.holds_local hd hb (hfills filter hfilter) (fun _ _ => rfl) hcells
    refine rows_frame hs htable hwired hdatabase hhasKey (hother hjoins) hflat hcompares ?_ _ _ hwhole
    rw [hpassing]
    exact hfound
  · apply rows_wholeOutput
    exact ⟨hwhole.1, fun n hn => (length_outputTuples hjoins _).trans (hwhole.2 n hn)⟩

/-- Without a page all that passes the filters is returned. -/
theorem Selects.rows_whole (h : p.Selects filters relations d) (hb : b.Binds p.schema args d.rules)
    (hsubs : ∃ later, subs = ⟨b.subs.fragments ++ later⟩) (w : World) :
    (((p.wholeOutput relations filters order).filled (.ofSubstitution subs)).rows w []).Perm
      (p.allRows (.ofSubstitution b.subs) w relations filters) := by
  have hall : p.allRows (.ofSubstitution subs) w relations filters =
      p.allRows (.ofSubstitution b.subs) w relations filters := by
    rw [allRows, allRows, h.passing_append hb hsubs w]
  rw [← hall, wholeOutput_eq]
  exact rows_wholeOutput _ p w relations filters order (wholePage_none _ w _)

/-- A page that leaves no root out returns what the whole output does. -/
theorem Selects.rows_same (h : p.Selects filters relations d) (hs : p.schema.Sound)
    (hkeyed : p.schema.Keyed) (htable : p.table ∈ p.schema.tables)
    (hexists : ∀ r ∈ relations.all, ∀ k, sameName (existsAlias k) r.aliasName = false)
    (hother : relations.hasJoins = true →
      ∀ r ∈ relations.all, sameName p.windowAlias r.aliasName = false)
    (hflat : FlatTo relations filters)
    (hb : b.Binds p.schema args d.rules) (hsubs : ∃ later, subs = ⟨b.subs.fragments ++ later⟩)
    {wholeSubs : Substitution} (hwholeSubs : ∃ later, wholeSubs = ⟨b.subs.fragments ++ later⟩)
    {bound : Record} (hsame : SameBound d b bound params)
    (hdatabase : w.database.Keyed w.dialect p.schema) {query : Query}
    (hquery : relations.hasJoins = true ∧ p.table.hasKey = true ∧
        query = p.pageOutput relations filters order offset fetch ∨
      relations.hasJoins = false ∧
        query = { p.wholeOutput relations filters (order ++ p.keyTerms relations.root.aliasName) with
          offset, fetch })
    (hwhole : WholePage (w.under bound) (w.database.tables p.table.name).length
      (optionalFilled (.ofSubstitution subs) offset) (optionalFilled (.ofSubstitution subs) fetch))
    (others : List OrderItem)
    (hfound : ∀ t ∈ sourceTuples (w.under params) []
        ((p.wholeOutput relations filters others).filled (.ofSubstitution wholeSubs)).source,
      ((p.wholeOutput relations filters others).filled (.ofSubstitution wholeSubs)).passes
        (w.under params) [] t = true → Found relations filters t) :
    ((query.filled (.ofSubstitution subs)).rows (w.under bound) []).Perm
      (((p.wholeOutput relations filters others).filled (.ofSubstitution wholeSubs)).rows
        (w.under params) []) := by
  obtain ⟨hwired, haimed⟩ := h.aimed hs hkeyed htable hexists
  have hpassing := h.passing_under (w := w.under bound) haimed hb hsame
  have hroots : p.tableRows (w.under bound) relations.root = w.database.tables p.table.name :=
    tableRows_root hs htable hwired (w.under bound)
  rw [← hroots] at hwhole
  -- The page returns all that passes in its own parameters, which in those of the whole output is
  -- the same.
  have hpage := h.rows_page (w := w.under bound) hs hkeyed htable hexists hother hflat hb hsubs
    hdatabase hquery hwhole (by
      intro row hrow t ht hpasses
      apply hfound t
      · rw [source_wholeOutput]
        refine List.mem_flatMap.mpr ⟨row, hrow, ?_⟩
        rw [outputTuples, extensions_under] at ht ⊢
        exact ht
      · rw [passes_wholeOutput, h.passing_append hb hwholeSubs, ← hpasses]
        exact hpassing t)
  have hall : p.allRows (.ofSubstitution b.subs) (w.under params) relations filters =
      p.allRows (.ofSubstitution b.subs) (w.under bound) relations filters := allRows_under hpassing
  calc
    List.Perm _ (p.allRows (.ofSubstitution b.subs) (w.under bound) relations filters) := hpage
    _ = p.allRows (.ofSubstitution b.subs) (w.under params) relations filters := hall.symm
    List.Perm _ _ := (h.rows_whole hb hwholeSubs (w.under params)).symm

end Selects

end Planner

/-- A page of these arguments skips nothing, and is large enough for so many roots. -/
structure Arguments.Spans (a : Arguments) (args : Value) (roots : Nat) : Prop where
  offset : ∀ field ∈ a.offset, (args.entry field.path).count? = some 0
  fetch : ∀ field ∈ a.fetch, ∃ n ∈ (args.entry field.path).count?, roots ≤ n

instance (a : Arguments) (args : Value) (roots : Nat) : Decidable (a.Spans args roots) :=
  decidable_of_iff ((∀ field ∈ a.offset, (args.entry field.path).count? = some 0) ∧
      ∀ field ∈ a.fetch, ∃ n ∈ (args.entry field.path).count?, roots ≤ n)
    ⟨fun h => ⟨h.1, h.2⟩, fun h => ⟨h.offset, h.fetch⟩⟩

theorem Arguments.Spans.wholePage {a : Arguments} {args : Value} {roots : Nat} (h : a.Spans args roots)
    {w : World} {offset fetch : Option Expr}
    (hoffset : pageCount? w offset = a.offset.bind fun field => (args.entry field.path).count?)
    (hfetch : pageCount? w fetch = a.fetch.bind fun field => (args.entry field.path).count?) :
    Planner.WholePage w roots offset fetch := by
  constructor
  · rw [hoffset]
    cases hargument : a.offset with
    | none => rfl
    | some field => rw [Option.bind_some, h.offset field hargument, Option.getD_some]
  · intro n hn
    rw [hfetch] at hn
    obtain ⟨field, hfield, hcount⟩ := Option.bind_eq_some_iff.mp hn
    obtain ⟨m, hm, hroots⟩ := h.fetch field hfield
    rw [Option.mem_def.mp hm] at hcount
    cases hcount
    exact hroots

/-- A bound query is the text of the query with its holes filled, and has the parameters of its plan. -/
theorem Compiled.filled_of_bind {c : Compiled} {query : Query} (hbatch : c.plan.batch = [.query query])
    {args : Value} {bound : Bound} (h : c.bind args = .ok bound) : ∃ subs,
      c.plan.substitution c.schema args = .ok (subs, bound.params) ∧
      c.resolved args = .ok [.query (query.filled (.ofSubstitution subs))] ∧
      Batch.render [.query (query.filled (.ofSubstitution subs))] .empty = .ok bound.sql := by
  obtain ⟨subs, hsubs⟩ := Plan.substitution_of_bind h
  obtain ⟨_, _, hfilled, hresolved, hrender⟩ := Compiled.query_of_bind hbatch h
  rw [hsubs] at hfilled
  cases hfilled
  exact ⟨subs, hsubs, hresolved, hrender⟩

namespace Compiler

variable {c : Compiler} {spec : QuerySpec} {compiled : Compiled}
  {declarations : List TableDeclaration} {schema : Schema} {setup : CompilerSetup}
  {declaration : SpecDeclaration} {shapes : Shapes}

/-- A page that skips nothing and has room for all roots returns the rows of the statement that is compiled
from the same declaration without its paging arguments, and is bound to the same ones, wherever primary
keys are unique and not null and no row of that statement is of a root without rows of a collection that
is filtered. Names that planning makes up are not to be those of relations, nor is anything to be embedded
on the way to a collection that is filtered. What is bound with its page is bound without it, unless
a value names the columns to order by. -/
theorem bind_pagesAll (hschema : Schema.build declarations = .ok schema)
    (hsetup : setup.schema = some schema) (hbuild : setup.build = .ok c)
    (hspec : declaration.build shapes = .ok spec) (hcompile : c.compile spec = .ok compiled)
    (hselect : spec.operation = .select) {arguments : Arguments} {target : Table}
    {relations : Relations}
    (harguments : Arguments.classify spec.operation spec.arguments.children = .ok arguments)
    (htarget : Plan.targetTable c.resolver spec = .ok target)
    (hpaged : arguments.isPaged = true) (hrelations : compiled.plan.relations = some relations)
    (hexists : ∀ r ∈ relations.all, ∀ k, sameName (existsAlias k) r.aliasName = false)
    (hwindow : relations.hasJoins = true →
      ∀ r ∈ relations.all, sameName c.options.keyWindowAlias r.aliasName = false)
    (hflat : ∀ filters, c.FilteredBy spec relations filters → Planner.FlatTo relations filters) :
    ∃ unpaged whole, declaration.unpaged.build shapes = .ok unpaged ∧
      c.compile unpaged = .ok whole ∧ ∀ args bound, compiled.bind args = .ok bound →
        ((∀ field ∈ arguments.orderBy, field.directives.orderBy ≠ some .dynamic) →
          ∃ all, whole.bind args = .ok all) ∧
        ∀ all, whole.bind args = .ok all → ∃ page query,
          compiled.resolved args = .ok [.query page] ∧
          Batch.render [.query page] .empty = .ok bound.sql ∧
          whole.resolved args = .ok [.query query] ∧
          Batch.render [.query query] .empty = .ok all.sql ∧
          ∀ w : World, w.database.Keyed w.dialect compiled.schema →
            arguments.Spans args (w.database.tables target.name).length →
            (∀ filters, c.FilteredBy spec relations filters →
              ∀ t ∈ sourceTuples (w.under all.params) [] query.source,
                query.passes (w.under all.params) [] t = true → Planner.Found relations filters t) →
            (page.rows (w.under bound.params) []).Perm (query.rows (w.under all.params) []) := by
  obtain ⟨hunpaged, hpaging⟩ := SpecDeclaration.build_unpaged hspec
  obtain ⟨p, last, query, found, hp, hrun, hbatch, hfound, hrules, hparams, hsame, hs, hkeyed, htable⟩ :=
    select_of_compile hschema hsetup hbuild hcompile hselect
  obtain ⟨hschemas, hplan⟩ := ofSpec_of_compile hcompile
  rw [hrelations] at hfound
  cases hfound
  have htargeted := hp.target
  have hclassified := hp.arguments
  rw [htarget] at htargeted
  rw [harguments] at hclassified
  cases htargeted
  cases hclassified
  obtain ⟨filters, order, offset, fetch, d, between, hselects, horder, hpages, hoffset, hfetch, hcount,
    hquery⟩ := Planner.select_page hpaged hrun
  obtain ⟨others, other, hwholeRun, hother, hfixed⟩ := Planner.select_whole hselects hcount horder
  have hstatements : (Plan.statements p.unpaged).run default =
      .ok (([.query (p.wholeOutput relations filters others)], some relations), other) := by
    have hoperation : p.unpaged.operation = .select := hp.operation.trans hselect
    unfold Plan.statements
    rw [hoperation]
    exact run_bind_ok.mpr ⟨_, _, hwholeRun, rfl⟩
  have hwholePlan := Plan.ofSpec_unpaged hplan hp hpaging hstatements
  let plan : Plan := ⟨[.query (p.wholeOutput relations filters others)], other.rules, other.params,
    some relations⟩
  let whole : Compiled := ⟨c.schema, plan, c.materializer? spec.unpaged plan, spec.outputKind⟩
  refine ⟨spec.unpaged, whole, hunpaged, except_bind_ok.mpr ⟨plan, hwholePlan, rfl⟩, ?_⟩
  intro args bound hbind
  have hsound := Plan.ofSpec_sound hplan
  have hwholeSound : plan.Sound := Plan.ofSpec_sound hwholePlan
  constructor
  · intro hnone
    cases hfixed hnone
    obtain ⟨more, hmore, _⟩ := hpages.params
    have hkeeps := Plan.ofSpec_keepsAssignment (hp.resolver ▸ hs) hwholePlan
    rw [Compiled.bind, hschemas] at hbind
    exact Plan.bind_of_bind hsound hwholeSound hkeeps (hrules.trans hpages.rules)
      (hparams.trans hmore) hbind
  · intro all hall
    obtain ⟨subs, hsubs, hresolved, hrender⟩ := Compiled.filled_of_bind hbatch hbind
    obtain ⟨wholeSubs, hwholeSubs, hwholeResolved, hwholeRender⟩ :=
      Compiled.filled_of_bind (c := whole) rfl hall
    have hwholeSchema : whole.schema = p.schema := hschemas.symm.trans hsame.symm
    rw [hwholeSchema] at hwholeSubs
    rw [← hsame] at hsubs
    -- Both bind what the filters asked for first, and bind it to the same.
    obtain ⟨b, hb, hlater, hwholeLater, hbound, hread⟩ := Plan.substitution_page hsound hwholeSound
      hselects.fills.1 hrules hparams rfl rfl (Planner.orderItems_ordered horder).1 hpages hother hsubs
      hwholeSubs
    refine ⟨_, _, hresolved, hrender, hwholeResolved, hwholeRender, ?_⟩
    intro w hdatabase hspans hfound
    rw [← hsame] at hdatabase
    have hwhole := hspans.wholePage (hoffset.count (w := w.under bound.params) hread (.ofSubstitution subs))
      (hfetch.count hread (.ofSubstitution subs))
    have hfiltered : c.FilteredBy spec relations filters := by
      obtain ⟨start, joined, hstart, hfilters, hanchored⟩ := hselects
      exact ⟨p, start, joined, d, hp, hstart, hfilters, hanchored⟩
    exact hselects.rows_same hs hkeyed htable hexists (hp.windowAlias ▸ hwindow) (hflat filters hfiltered)
      hb hlater hwholeLater hbound hdatabase hquery hwhole others (hfound filters hfiltered)

/-- Two people, one with a pet of the name and another one, and a person with another pet alone. -/
def kennelWorld : World where
  dialect := .literal
  database := .literal [
    ("Person", [[("Id", .i32 1)], [("Id", .i32 2)]]),
    ("Pet", [[("Id", .i32 10), ("PersonId", .i32 1), ("Name", .text "Rex")],
      [("Id", .i32 11), ("PersonId", .i32 1), ("Name", .text "Tom")],
      [("Id", .i32 12), ("PersonId", .i32 2), ("Name", .text "Tom")]])] []
  params := []

/-- What the query keeps has rows of all collections, and there is some. -/
def keepsFound (relations : Relations) (w : World) (query : Query) : Bool :=
  !(query.rows w []).isEmpty && (sourceTuples w [] query.source).all fun t =>
    !query.passes w [] t || relations.visits.all fun v =>
      Relations.reachedToOne v || !(Env.cell [t] v.label.aliasName "Id").isNull

/-- The page of people has room for them, and no row of the whole output is of a person without pets. -/
def kennelWholeTest (c : Compiler) (spec : QuerySpec) (compiled : Compiled) : Bool :=
  kennelTest c spec compiled && compiled.plan.relations.isSome &&
  decide (kennelWorld.database.Keyed kennelWorld.dialect compiled.schema) &&
  ((Plan.targetTable c.resolver spec).toOption.any fun target => target.name == "Person") &&
  ((Arguments.classify spec.operation spec.arguments.children).toOption.any fun arguments =>
    arguments.isPaged && decide (arguments.Spans kennelArguments 2)) &&
  (kennelPage.unpaged.build kennelShapes).toOption.any fun unpaged =>
    (c.compile unpaged).toOption.any fun whole =>
      (whole.bind kennelArguments).toOption.any fun all =>
        (whole.resolved kennelArguments).toOption.any fun
          | [.query query] => compiled.plan.relations.any fun relations =>
            keepsFound relations (kennelWorld.under all.params) query
          | _ => false

/-- A page of people by the name of a pet that has room for all people returns all of them with such a
pet. -/
theorem bind_pagesAll_kennel :
    ∃ schema spec compiled unpaged whole bound all page query,
      Schema.build kennelDeclarations = .ok schema ∧ kennelPage.build kennelShapes = .ok spec ∧
      (⟨schema, default, .exact⟩ : Compiler).compile spec = .ok compiled ∧
      kennelPage.unpaged.build kennelShapes = .ok unpaged ∧
      (⟨schema, default, .exact⟩ : Compiler).compile unpaged = .ok whole ∧
      compiled.bind kennelArguments = .ok bound ∧ whole.bind kennelArguments = .ok all ∧
      compiled.resolved kennelArguments = .ok [.query page] ∧
      whole.resolved kennelArguments = .ok [.query query] ∧
      query.rows (kennelWorld.under all.params) [] ≠ [] ∧
      (page.rows (kennelWorld.under bound.params) []).Perm
        (query.rows (kennelWorld.under all.params) []) := by
  obtain ⟨schema, spec, compiled, hschema, hspec, hcompile, htest⟩ :
      ∃ schema spec compiled, Schema.build kennelDeclarations = .ok schema ∧
        kennelPage.build kennelShapes = .ok spec ∧
        (⟨schema, default, .exact⟩ : Compiler).compile spec = .ok compiled ∧
        kennelWholeTest ⟨schema, default, .exact⟩ spec compiled = true :=
    exists_compiled (by decide +kernel)
  simp only [kennelWholeTest, kennelTest, Bool.and_eq_true, beq_iff_eq, decide_eq_true_eq] at htest
  obtain ⟨⟨⟨⟨⟨⟨⟨⟨⟨hselect, hbinds⟩, _⟩, _⟩, hnames⟩, hrelates⟩, hkeyed⟩, htargets⟩, hclassifies⟩,
    hunpages⟩ := htest
  obtain ⟨bound, hbind, _⟩ := exists_ok_of_any hbinds
  obtain ⟨relations, hrelations⟩ := Option.isSome_iff_exists.mp hrelates
  obtain ⟨target, htarget, hperson⟩ := exists_ok_of_any htargets
  obtain ⟨arguments, harguments, hpaged⟩ := exists_ok_of_any hclassifies
  obtain ⟨hpaged, hspans⟩ := Bool.and_eq_true_iff.mp hpaged
  obtain ⟨unpaged, hunpaged, hwholes⟩ := exists_ok_of_any hunpages
  obtain ⟨whole, hwhole, halls⟩ := exists_ok_of_any hwholes
  obtain ⟨all, hall, hresolves⟩ := exists_ok_of_any halls
  obtain ⟨batch, hresolved, hkeeps⟩ := exists_ok_of_any hresolves
  rw [hrelations] at hnames
  simp only [Option.all_some, Bool.and_eq_true, List.all_eq_true, Bool.not_eq_true'] at hnames
  have hbuild : (CompilerSetup.mk (some schema) default (some .exact)).build =
      .ok ⟨schema, default, .exact⟩ := rfl
  obtain ⟨_, _, hsame, hsameWhole, hpages⟩ := bind_pagesAll hschema rfl hbuild hspec hcompile hselect
    harguments htarget hpaged hrelations
    (fun r hr k => sameName_existsAlias_of_start (hnames.2 r hr).1 k)
    (fun _ r hr => (hnames.2 r hr).2) (fun _ _ _ _ v hv _ => hnames.1 v hv)
  rw [hunpaged] at hsame
  cases hsame
  rw [hwhole] at hsameWhole
  cases hsameWhole
  obtain ⟨page, query, hpage, _, hquery, _, hrows⟩ := (hpages kennelArguments bound hbind).2 all hall
  rw [hresolved] at hquery
  cases hquery
  simp only [hrelations, Option.any_some, keepsFound, Bool.and_eq_true, Bool.not_eq_true',
    List.isEmpty_eq_false_iff, List.all_eq_true] at hkeeps
  have hfound : ∀ filters, Compiler.FilteredBy ⟨schema, default, .exact⟩ spec relations filters →
      ∀ t ∈ sourceTuples (kennelWorld.under all.params) [] query.source,
        query.passes (kennelWorld.under all.params) [] t = true →
          Planner.Found relations filters t := by
    intro filters _ t ht hpasses filter _ v hv _ hmany
    have hrows := hkeeps.2 t ht
    rw [hpasses, Bool.not_true, Bool.false_or, List.all_eq_true] at hrows
    have hrow := hrows v hv
    rw [hmany, Bool.false_or, Bool.not_eq_true'] at hrow
    exact ⟨"Id", hrow⟩
  have hspanned : arguments.Spans kennelArguments
      (kennelWorld.database.tables target.name).length := by
    rw [eq_of_beq hperson]
    exact of_decide_eq_true hspans
  exact ⟨schema, spec, compiled, unpaged, whole, bound, all, page, query, hschema, hspec, hcompile,
    hunpaged, hwhole, hbind, hall, hpage, hresolved, hkeeps.1, hrows kennelWorld hkeyed hspanned hfound⟩

/-- A person with a pet, and one without. -/
def droppedWorld : World where
  dialect := .literal
  database := .literal [
    ("Person", [[("Id", .i32 1)], [("Id", .i32 2)]]),
    ("Pet", [[("Id", .i32 10), ("PersonId", .i32 1), ("Name", .text "Rex")]])] []
  params := []

/-- Pages of these arguments have room for both, and one of them is missing. -/
def droppedWholeTest (c : Compiler) (spec : QuerySpec) (compiled : Compiled) : Bool :=
  compiled.plan.relations.any Relations.hasJoins &&
  decide (droppedWorld.database.Keyed droppedWorld.dialect compiled.schema) &&
  ((Arguments.classify spec.operation spec.arguments.children).toOption.any fun arguments =>
    arguments.isPaged && decide (arguments.Spans droppedArguments 2)) &&
  (compiled.bind droppedArguments).toOption.any fun bound =>
    (compiled.resolved droppedArguments).toOption.any fun
      | [.query page] => (droppedPage.unpaged.build kennelShapes).toOption.any fun unpaged =>
        (c.compile unpaged).toOption.any fun whole =>
          (whole.bind droppedArguments).toOption.any fun all =>
            (whole.resolved droppedArguments).toOption.any fun
              | [.query query] =>
                decide ((page.rows (droppedWorld.under bound.params) []).length = 1) &&
                decide ((query.rows (droppedWorld.under all.params) []).length = 2)
              | _ => false
      | _ => false

/-- Without a name for the pet, a page with room for all people leaves out the one without pets, whom the
statement without the page returns. -/
theorem missing_person :
    ∃ schema spec compiled unpaged whole arguments bound all page query,
      Schema.build kennelDeclarations = .ok schema ∧ droppedPage.build kennelShapes = .ok spec ∧
      (⟨schema, default, .exact⟩ : Compiler).compile spec = .ok compiled ∧
      droppedPage.unpaged.build kennelShapes = .ok unpaged ∧
      (⟨schema, default, .exact⟩ : Compiler).compile unpaged = .ok whole ∧
      Arguments.classify spec.operation spec.arguments.children = .ok arguments ∧
      arguments.isPaged = true ∧
      arguments.Spans droppedArguments (droppedWorld.database.tables "Person").length ∧
      compiled.bind droppedArguments = .ok bound ∧ whole.bind droppedArguments = .ok all ∧
      compiled.resolved droppedArguments = .ok [.query page] ∧
      whole.resolved droppedArguments = .ok [.query query] ∧
      droppedWorld.database.Keyed droppedWorld.dialect compiled.schema ∧
      ¬(page.rows (droppedWorld.under bound.params) []).Perm
        (query.rows (droppedWorld.under all.params) []) := by
  obtain ⟨schema, spec, compiled, hschema, hspec, hcompile, htest⟩ :
      ∃ schema spec compiled, Schema.build kennelDeclarations = .ok schema ∧
        droppedPage.build kennelShapes = .ok spec ∧
        (⟨schema, default, .exact⟩ : Compiler).compile spec = .ok compiled ∧
        droppedWholeTest ⟨schema, default, .exact⟩ spec compiled = true :=
    exists_compiled (by decide +kernel)
  simp only [droppedWholeTest, Bool.and_eq_true, decide_eq_true_eq] at htest
  obtain ⟨⟨⟨_, hkeyed⟩, hclassifies⟩, hbinds⟩ := htest
  obtain ⟨arguments, harguments, hpaged⟩ := exists_ok_of_any hclassifies
  obtain ⟨hpaged, hspans⟩ := Bool.and_eq_true_iff.mp hpaged
  obtain ⟨bound, hbind, hresolves⟩ := exists_ok_of_any hbinds
  obtain ⟨batch, hresolved, hunpages⟩ := exists_ok_of_any hresolves
  split at hunpages
  · rename_i page
    obtain ⟨unpaged, hunpaged, hwholes⟩ := exists_ok_of_any hunpages
    obtain ⟨whole, hwhole, halls⟩ := exists_ok_of_any hwholes
    obtain ⟨all, hall, hresolves⟩ := exists_ok_of_any halls
    obtain ⟨others, hothers, hrows⟩ := exists_ok_of_any hresolves
    split at hrows
    · rename_i query
      obtain ⟨hone, htwo⟩ := Bool.and_eq_true_iff.mp hrows
      refine ⟨schema, spec, compiled, unpaged, whole, arguments, bound, all, page, query, hschema, hspec,
        hcompile, hunpaged, hwhole, harguments, hpaged, of_decide_eq_true hspans, hbind, hall, hresolved,
        hothers, hkeyed, ?_⟩
      intro hperm
      have hlength := hperm.length_eq
      rw [of_decide_eq_true hone, of_decide_eq_true htwo] at hlength
      cases hlength
    · cases hrows
  · cases hunpages

end Compiler

end ShapeSql
