import ShapeSql.Proofs.Plan.Filter
import ShapeSql.Proofs.Plan.Sites
import ShapeSql.Proofs.Relation.Edges

namespace ShapeSql

open Sql Planning

variable {s : Schema} {c : Catalog} {columns clauses : Prop} {d d' : Draft}

/-- The catalog knows the tables of the schema. -/
def Sql.Catalog.Knows (c : Catalog) (s : Schema) : Prop :=
  ∀ t ∈ s.tables, c.tables t.name = t.columns.map Column.name

theorem Schema.Keyed.catalog_knows (h : s.Keyed) : (Catalog.ofSchema s).Knows s := by
  intro t ht
  simp only [Catalog.ofSchema, h.find_name ht]

/-- A table under an alias offers its own columns. -/
theorem Sql.Catalog.Knows.offer (hc : c.Knows s) {t : Table} (ht : t ∈ s.tables)
    (aliasName : String) : (Factor.table t.name (some aliasName)).offer c =
      ⟨aliasName, t.columns.map Column.name⟩ := by
  rw [Factor.offer, hc t ht, Option.getD_some]

/-- Among row sources with names apart, a table that offers its columns is read. -/
theorem reads_of_offer {scope : List Offer} {outer : Scopes} {aliasName : String} {t : Table}
    (h : Apart (scope.map Offer.aliasName))
    (hoffer : (⟨aliasName, t.columns.map Column.name⟩ : Offer) ∈ scope) :
    Scopes.Reads (scope :: outer) aliasName t := by
  intro column hcolumn
  have hmem : column.name ∈ t.columns.map Column.name := List.mem_map_of_mem hcolumn
  exact Scopes.resolve_of_apart h hoffer hmem

/-- Only columns and clauses are asked about, and what is asked is true. -/
def Sql.AllAsked (columns clauses : Prop) (sites : List Site) : Prop :=
  ∀ site ∈ sites, site.Asked columns clauses

theorem Sql.AllAsked.settles {sites : List Site} (h : AllAsked columns clauses sites) (d : Draft) :
    d.Settles s c columns clauses sites :=
  fun site hsite => (h site hsite).settled

namespace Planner

variable {p : Planner}

theorem pairEq_asked (hs : p.schema.Sound) {parent child : Table} (hparent : parent ∈ p.schema.tables)
    (hchild : child ∈ p.schema.tables) {left right : String} {pairs : List JoinPair}
    (hpairs : PairsBetween parent child pairs) {scopes : Scopes}
    (hleft : columns → scopes.Reads left parent) (hright : columns → scopes.Reads right child) :
    AllAsked columns clauses ((p.pairsEq left right pairs).collect (.sites c) scopes) := by
  intro site hsite
  rw [pairsEq, Expr.collect_allOf, List.flatMap_map] at hsite
  obtain ⟨pair, hpair, hsite⟩ := List.mem_flatMap.mp hsite
  rw [Expr.collect_eq, Expr.sites_columnOf, Expr.sites_columnOf] at hsite
  obtain ⟨hforeign, hprimary⟩ := hpairs pair hpair
  rcases List.mem_append.mp hsite with hin | hin
  · obtain ⟨column, hcolumn, _, hname⟩ := hs.columnName_of_owns hparent hforeign
    rw [List.mem_singleton.mp hin, hname]
    exact fun hasked => hleft hasked column hcolumn
  · obtain ⟨column, hcolumn, _, hname⟩ := hs.columnName_of_owns hchild hprimary
    rw [List.mem_singleton.mp hin, hname]
    exact fun hasked => hright hasked column hcolumn

section Names

theorem rule_nextAlias {path : Path} {action : Action} {hole : HoleId}
    (hrun : (rule path action).run d = .ok (hole, d')) : d'.nextAlias = d.nextAlias := by
  cases hrun
  rfl

theorem param_nextAlias {path : Path} {transform : Transform} {name : String}
    (hrun : (param path transform).run d = .ok (name, d')) : d'.nextAlias = d.nextAlias := by
  rw [param, run_modifyGet_ok] at hrun
  split at hrun
  · cases hrun
    rfl
  · cases hrun
    rfl

theorem predicateParam_nextAlias {field : Field} {name : String}
    (hrun : (predicateParam field).run d = .ok (name, d')) : d'.nextAlias = d.nextAlias := by
  rcases predicateParam_eq field with ⟨_, heq⟩ | ⟨_, transform, _, heq⟩
  · rw [heq] at hrun
    cases hrun
    rfl
  · exact param_nextAlias (heq ▸ hrun)

end Names

/-- A comparison reads its column wherever its hole stands. -/
theorem predicate_settles {aliasName name : String} {field : Field} {ignore : Option Ignore}
    {e : Expr} (hrun : (predicate (.columnOf aliasName name) field ignore).run d = .ok (e, d')) :
    d'.nextAlias = d.nextAlias ∧ ∀ scopes : Scopes, (columns → scopes.Resolve aliasName name) →
      d'.Settles s c columns clauses (e.collect (.sites c) scopes) := by
  simp only [predicate, run_bind_ok, run_pure_ok] at hrun
  obtain ⟨param, between, hparam, hole, after, hhole, rfl, rfl⟩ := hrun
  refine ⟨(rule_nextAlias hhole).trans (predicateParam_nextAlias hparam), ?_⟩
  intro scopes hresolve
  rw [Expr.collect]
  refine rule_settles ?_ hhole
  rw [Action.sites, Expr.sites_columnOf]
  exact Draft.settles_column hresolve

/-- A guard keeps the condition, and so its sites. -/
theorem guarded_settles {path : Path} {ignore : Option Ignore} {expr e : Expr}
    (hrun : (guarded path ignore expr).run d = .ok (e, d')) :
    d'.nextAlias = d.nextAlias ∧ ∀ scopes : Scopes,
      d.Settles s c columns clauses (expr.collect (.sites c) scopes) →
        d'.Settles s c columns clauses (e.collect (.sites c) scopes) := by
  cases ignore with
  | none =>
    simp only [guarded, run_pure_ok] at hrun
    obtain ⟨rfl, rfl⟩ := hrun
    exact ⟨rfl, fun _ h => h⟩
  | some ignore =>
    simp only [guarded, run_bind_ok, run_pure_ok] at hrun
    obtain ⟨hole, after, hhole, rfl, rfl⟩ := hrun
    refine ⟨rule_nextAlias hhole, ?_⟩
    intro scopes hexpr
    rw [Expr.collect]
    exact rule_settles hexpr hhole

/-- The FROM clause of a subquery over numbered tables, planned between two drafts: what it joins, and
the table `t` under the alias `aliasName` among its row sources. -/
structure Numbered (c : Catalog) (columns clauses : Prop) (first next : Nat) (source : Source)
    (aliasName : String) (t : Table) : Prop where
  apart : Apart source.aliases
  numbered : ∀ name ∈ source.aliases, ∃ k, first ≤ k ∧ k < next ∧ name = existsAlias k
  offered : (⟨aliasName, t.columns.map Column.name⟩ : Offer) ∈ source.offers c
  parts : ∀ scopes, AllAsked columns clauses (source.partsCollect (.sites c) scopes)

namespace Numbered

variable {first next : Nat} {source : Source} {aliasName : String} {t : Table}

theorem of (hc : c.Knows s) (ht : t ∈ s.tables) (k : Nat) :
    Numbered c columns clauses k (k + 1) (.of (.table t.name (some (existsAlias k)))) (existsAlias k)
      t where
  apart := List.nodup_singleton _
  numbered := by
    intro name hname
    exact ⟨k, Nat.le_refl _, Nat.lt_succ_self _, List.mem_singleton.mp hname⟩
  offered := by
    rw [Source.offers_of, hc.offer ht]
    exact List.mem_singleton.mpr rfl
  parts := by
    intro scopes site hsite
    rw [Source.partsCollect_of, Factor.collect] at hsite
    cases hsite

/-- Inside the subquery the columns of the table are read through the alias. -/
theorem reads (h : Numbered c columns clauses first next source aliasName t) (scopes : Scopes) :
    Scopes.Reads (source.offers c :: scopes) aliasName t := by
  have hapart := h.apart
  rw [source.aliases_eq c] at hapart
  exact reads_of_offer hapart h.offered

/-- Aliases that no table to come is named like are not hidden. -/
theorem reads_outer (h : Numbered c columns clauses first next source aliasName t) {outer : String}
    (hspared : ∀ k, first ≤ k → sameName (existsAlias k) outer = false) {scopes : Scopes} {u : Table}
    (hreads : scopes.Reads outer u) : Scopes.Reads (source.offers c :: scopes) outer u := by
  intro column hcolumn
  apply Scopes.resolve_outer _ (hreads column hcolumn)
  intro offer hoffer
  have hname : offer.aliasName ∈ source.aliases := by
    rw [source.aliases_eq c]
    exact List.mem_map_of_mem hoffer
  obtain ⟨k, hk, _, hnumbered⟩ := h.numbered _ hname
  rw [hnumbered]
  exact hspared k hk

theorem alias_lt (h : Numbered c columns clauses first next source aliasName t) :
    ∃ k, first ≤ k ∧ k < next ∧ aliasName = existsAlias k := by
  apply h.numbered
  rw [source.aliases_eq c]
  exact List.mem_map.mpr ⟨_, h.offered, rfl⟩

/-- One more table is joined to one of those before, under a number that none of them has. -/
theorem join (hs : p.schema.Sound) (hc : c.Knows p.schema)
    (h : Numbered c columns clauses first next source aliasName t) (ht : t ∈ p.schema.tables)
    {u : Table} (hu : u ∈ p.schema.tables) {pairs : List JoinPair} (hpairs : PairsBetween t u pairs)
    {k low high : Nat} (hk : k < first ∨ next ≤ k) (hlow : low ≤ k ∧ low ≤ first)
    (hhigh : k < high ∧ next ≤ high) :
    Numbered c columns clauses low high (source.join .inner
      (.table u.name (some (existsAlias k))) (p.pairsEq aliasName (existsAlias k) pairs))
      (existsAlias k) u := by
  have hold : ∀ name ∈ source.aliases, sameName name (existsAlias k) = false := by
    intro name hname
    obtain ⟨j, _, hj, rfl⟩ := h.numbered name hname
    rw [Bool.eq_false_iff]
    intro hsame
    have := sameName_existsAlias.mp hsame
    omega
  have haliases : Apart (source.aliases ++ [existsAlias k]) := h.apart.append_singleton hold
  let offered : Offer := ⟨existsAlias k, u.columns.map Column.name⟩
  have hoffers : Apart ((source.offers c ++ [offered]).map Offer.aliasName) := by
    rw [List.map_append, ← source.aliases_eq c]
    exact haliases
  have hlast : offered ∈ source.offers c ++ [offered] :=
    List.mem_append_right _ (List.mem_singleton.mpr rfl)
  exact {
    apart := by
      rw [Source.aliases_join]
      exact haliases
    numbered := by
      intro name hname
      rw [Source.aliases_join] at hname
      rcases List.mem_append.mp hname with hbefore | hnew
      · obtain ⟨j, hle, hlt, heq⟩ := h.numbered name hbefore
        exact ⟨j, by omega, by omega, heq⟩
      · exact ⟨k, hlow.1, hhigh.1, List.mem_singleton.mp hnew⟩
    offered := by
      rw [Source.offers_join, hc.offer hu]
      exact hlast
    parts := by
      intro scopes site hsite
      rw [Source.partsCollect_join, Source.inside_sites, hc.offer hu, Factor.collect,
        List.nil_append] at hsite
      rcases List.mem_append.mp hsite with hbefore | hcondition
      · exact h.parts scopes site hbefore
      · exact pairEq_asked hs ht hu hpairs
          (fun _ => reads_of_offer hoffers (List.mem_append_left _ h.offered))
          (fun _ => reads_of_offer hoffers hlast) site hcondition }

end Numbered

/-- A query that only reads asks for what its FROM clause does. -/
theorem reading_settles {source : Source} {outer : Scopes} (hapart : clauses → Apart source.aliases)
    (hparts : d.Settles s c columns clauses (source.partsCollect (.sites c) outer)) :
    d.Settles s c columns clauses ((Query.reading source).collect (.sites c) outer) := by
  intro site hsite
  rw [Query.collect_reading, Source.collect_eq, Collector.sites_ordering, List.nil_append] at hsite
  rcases List.mem_cons.mp hsite with rfl | hpart
  · exact Site.settled_clause.mpr hapart
  · exact hparts site hpart

/-- A subquery asks for what its FROM clause and its tie ask for. -/
theorem probe_settles {source : Source} {tie : Expr} {scopes : Scopes}
    (hapart : clauses → Apart source.aliases)
    (hparts : d.Settles s c columns clauses (source.partsCollect (.sites c) scopes))
    (htie : d.Settles s c columns clauses (tie.collect (.sites c) (source.offers c :: scopes))) :
    d.Settles s c columns clauses (((probe source).restrict tie).collect (.sites c) scopes) := by
  intro site hsite
  rw [Query.mem_collect_restrict, mem_collect_probe, ← List.mem_append, ← Query.collect_reading] at hsite
  rcases hsite with hsource | hin
  · exact reading_settles hapart hparts site hsource
  · exact htie site hin

/-- Its condition comes last. -/
theorem exists_settles {source : Source} {tie condition : Expr} {scopes : Scopes} {negated : Bool}
    (hapart : clauses → Apart source.aliases)
    (hparts : d.Settles s c columns clauses (source.partsCollect (.sites c) scopes))
    (htie : d.Settles s c columns clauses (tie.collect (.sites c) (source.offers c :: scopes)))
    (hcondition : d.Settles s c columns clauses
      (condition.collect (.sites c) (source.offers c :: scopes))) :
    d.Settles s c columns clauses
      (Expr.collect (.sites c) scopes
        (.exists (((probe source).restrict tie).restrict condition) negated)) := by
  intro site hsite
  rw [Expr.collect, Query.mem_collect_restrict] at hsite
  rcases hsite with hquery | hin
  · exact probe_settles hapart hparts htie site hquery
  · exact hcondition site hin

/-- The further legs of a chain join their tables to the one before. -/
theorem legs_numbered (hs : p.schema.Sound) (hc : c.Knows p.schema) {rest : List Leg} {first : Nat}
    {source : Source} {previous : String × Table} {offer : Offer}
    (hrest : LegsFrom p.schema previous.2 rest) (hprevious : previous.2 ∈ p.schema.tables)
    (hfirst : first ≤ d.nextAlias) (h : Numbered c columns clauses first d.nextAlias source previous.1 previous.2)
    (hoffer : offer ∈ source.offers c) {walked : Source × String × Table}
    (hrun : (rest.foldlM (fun (source, previous) leg => do
      let aliasName ← Planning.freshAlias "__exists"
      let factor := Factor.table leg.table.name (some aliasName)
      return (source.join .inner factor (p.pairsEq previous.1 aliasName leg.pairs),
        (aliasName, leg.table)) : Source × String × Table → Leg → Planning (Source × String × Table))
      (source, previous)).run d = .ok (walked, d')) :
    d.nextAlias ≤ d'.nextAlias ∧ walked.2.2 ∈ p.schema.tables ∧ offer ∈ walked.1.offers c ∧
      Numbered c columns clauses first d'.nextAlias walked.1 walked.2.1 walked.2.2 := by
  induction rest generalizing d source previous with
  | nil =>
    rw [List.foldlM_nil, run_pure_ok] at hrun
    obtain ⟨rfl, rfl⟩ := hrun
    exact ⟨Nat.le_refl _, hprevious, hoffer, h⟩
  | cons leg rest ih =>
    simp only [List.foldlM_cons, run_bind_ok, run_pure_ok] at hrun
    obtain ⟨next, between, ⟨name, after, hname, rfl, rfl⟩, hothers⟩ := hrun
    obtain ⟨rfl, hnext, _⟩ := freshAlias_eq hname
    obtain ⟨htable, hpairs, _, hlegs⟩ := hrest
    have hhigh : d.nextAlias < after.nextAlias ∧ d.nextAlias ≤ after.nextAlias :=
      ⟨by omega, by omega⟩
    have hjoined := h.join hs hc hprevious htable hpairs (Or.inr (Nat.le_refl _))
      ⟨hfirst, Nat.le_refl _⟩ hhigh
    have hkept : offer ∈ (source.join .inner (.table leg.table.name (some (existsAlias d.nextAlias)))
        (p.pairsEq previous.1 (existsAlias d.nextAlias) leg.pairs)).offers c := by
      rw [Source.offers_join]
      exact List.mem_append_left _ hoffer
    obtain ⟨hlater, hlast, hoffered, hnumbered⟩ :=
      ih hlegs htable (by omega) hjoined hkept hothers
    exact ⟨by omega, hlast, hoffered, hnumbered⟩

/-- What ties the row sources of a subquery to the one outside. -/
def Ties (c : Catalog) (columns clauses : Prop) (d : Draft) (outer : String) (t : Table)
    (source : Source) (tie : Expr) : Prop :=
  ∀ scopes : Scopes, (columns → d.Spares outer) → (columns → scopes.Reads outer t) →
    AllAsked columns clauses (tie.collect (.sites c) (source.offers c :: scopes))

theorem Numbered.ties (hs : p.schema.Sound) {next : Nat} {source : Source} {aliasName : String}
    {t u v : Table} (h : Numbered c columns clauses d.nextAlias next source aliasName t)
    (hu : u ∈ p.schema.tables) (hv : v ∈ p.schema.tables) {outer entry : String}
    {pairs : List JoinPair} (hpairs : PairsBetween u v pairs)
    (hentry : (⟨entry, v.columns.map Column.name⟩ : Offer) ∈ source.offers c) :
    Ties c columns clauses d outer u source (p.pairsEq outer entry pairs) := by
  intro scopes hspared hreads
  have hapart := h.apart
  rw [source.aliases_eq c] at hapart
  exact pairEq_asked hs hu hv hpairs (fun hasked => h.reads_outer (hspared hasked) (hreads hasked))
    (fun _ => reads_of_offer hapart hentry)

theorem chain_numbered (columns clauses : Prop) (hs : p.schema.Sound) (hc : c.Knows p.schema) {outer : String} {t : Table}
    (ht : t ∈ p.schema.tables) {legs : List Leg} (hlegs : LegsFrom p.schema t legs)
    {found : Option (Source × Expr × String × Table)}
    (hrun : (p.chain outer legs).run d = .ok (found, d')) :
    d.nextAlias ≤ d'.nextAlias ∧ ∀ source tie lastAlias last,
      found = some (source, tie, lastAlias, last) → last ∈ p.schema.tables ∧
        Numbered c columns clauses d.nextAlias d'.nextAlias source lastAlias last ∧
        Ties c columns clauses d outer t source tie := by
  cases legs with
  | nil =>
    simp only [chain, run_pure_ok] at hrun
    obtain ⟨rfl, rfl⟩ := hrun
    refine ⟨Nat.le_refl _, ?_⟩
    intro source tie lastAlias table hnone
    cases hnone
  | cons first rest =>
    simp only [chain, run_bind_ok, run_pure_ok] at hrun
    obtain ⟨name, start, hname, walked, last, hwalk, rfl, rfl⟩ := hrun
    obtain ⟨rfl, hnext, _⟩ := freshAlias_eq hname
    obtain ⟨htable, hpairs, _, hrest⟩ := hlegs
    have hstart : Numbered c columns clauses d.nextAlias start.nextAlias
        (.of (.table first.table.name (some (existsAlias d.nextAlias)))) (existsAlias d.nextAlias)
        first.table := by
      rw [hnext]
      exact .of hc htable _
    obtain ⟨hlater, hlast, hoffered, hnumbered⟩ :=
      legs_numbered hs hc hrest htable (by omega) hstart hstart.offered hwalk
    refine ⟨by omega, ?_⟩
    intro source tie lastAlias table hsome
    cases hsome
    exact ⟨hlast, hnumbered, hnumbered.ties hs ht htable hpairs hoffered⟩

theorem viaExists_settles (hs : p.schema.Sound) (hkeyed : p.schema.Keyed) (hc : c.Knows p.schema)
    {scope : Scope} (hscope : scope.table ∈ p.schema.tables) {v : Via} {field : Field} {e : Expr}
    (hrun : (p.viaExists scope v field).run d = .ok (e, d')) :
    d.nextAlias ≤ d'.nextAlias ∧ ∀ scopes : Scopes, (columns → d.Spares scope.aliasName) →
      (columns → scopes.Reads scope.aliasName scope.table) →
        d'.Settles s c columns clauses (e.collect (.sites c) scopes) := by
  simp only [viaExists, run_bind_ok, run_lift_ok] at hrun
  obtain ⟨legs, _, ⟨hlegs, rfl⟩, found, between, hchain, hrest⟩ := hrun
  have hfrom := Resolver.via_from hs hkeyed hscope hlegs
  obtain ⟨hlater, hnumbered⟩ := chain_numbered columns clauses hs hc hscope hfrom hchain
  cases found with
  | none =>
    simp only [run_pure_ok] at hrest
    obtain ⟨rfl, rfl⟩ := hrest
    refine ⟨hlater, ?_⟩
    intro scopes _ _
    rw [Expr.collect_tautology]
    exact Draft.settles_nil
  | some walked =>
    obtain ⟨source, tie, lastAlias, last⟩ := walked
    obtain ⟨_, hinner, hties⟩ := hnumbered _ _ _ _ rfl
    simp only [run_bind_ok, run_lift_ok, run_pure_ok] at hrest
    obtain ⟨column, _, ⟨hcolumn, rfl⟩, condition, after, hcondition, rfl, rfl⟩ := hrest
    obtain ⟨hsame, hsettled⟩ := predicate_settles hcondition
    refine ⟨by omega, ?_⟩
    intro scopes hspared hreads
    apply exists_settles (fun _ => hinner.apart) ((hinner.parts scopes).settles _)
      ((hties scopes hspared hreads).settles _)
    apply hsettled
    intro _
    have hmem : column ∈ last.columns := by
      unfold viaColumn at hcolumn
      split at hcolumn
      · exact Resolver.mem_of_column hcolumn
      · split at hcolumn
        · rename_i hfound
          cases hcolumn
          exact mem_of_findNamed hfound
        · cases hcolumn
    exact hinner.reads scopes column hmem

theorem linked_numbered (columns clauses : Prop) (hs : p.schema.Sound) (hc : c.Knows p.schema) {outer : String}
    {t target : Table} (ht : t ∈ p.schema.tables) (htarget : target ∈ p.schema.tables) {link : Link}
    (hlink : link.Sound p.schema) (hbetween : link.Between p.schema t target)
    {found : String × Source × Expr} (hrun : (p.linked outer target link).run d = .ok (found, d')) :
    d.nextAlias ≤ d'.nextAlias ∧
      Numbered c columns clauses d.nextAlias d'.nextAlias found.2.1 found.1 target ∧
      Ties c columns clauses d outer t found.2.1 found.2.2 := by
  cases link with
  | parentHolds pairs | childHolds pairs =>
    simp only [linked, run_bind_ok, run_pure_ok] at hrun
    obtain ⟨name, between, hname, rfl, rfl⟩ := hrun
    obtain ⟨rfl, hnext, _⟩ := freshAlias_eq hname
    have hnumbered : Numbered c columns clauses d.nextAlias between.nextAlias
        (.of (.table target.name (some (existsAlias d.nextAlias)))) (existsAlias d.nextAlias)
        target := by
      rw [hnext]
      exact .of hc htarget _
    exact ⟨by omega, hnumbered, hnumbered.ties hs ht htarget hbetween hnumbered.offered⟩
  | junction table toParent toChild =>
    simp only [linked, run_bind_ok, run_pure_ok] at hrun
    obtain ⟨name, between, hname, junction, after, hjunction, rfl, rfl⟩ := hrun
    obtain ⟨rfl, hnext, _⟩ := freshAlias_eq hname
    obtain ⟨rfl, hlast, _⟩ := freshAlias_eq hjunction
    obtain ⟨⟨u, hu, rfl⟩, _, _⟩ := hlink
    obtain ⟨htoParent, htoChild⟩ := hbetween
    rw [hs.table_id hu] at htoParent htoChild
    have hjunction : Numbered c columns clauses between.nextAlias (between.nextAlias + 1)
        (.of (.table u.name (some (existsAlias between.nextAlias)))) (existsAlias between.nextAlias)
        u := .of hc hu _
    have hjoined := hjunction.join hs hc hu htarget htoChild (Or.inl (by omega : d.nextAlias < _))
      ⟨Nat.le_refl _, by omega⟩ ⟨by omega, Nat.le_refl _⟩
    rw [← hlast] at hjoined
    have hentry : (⟨existsAlias between.nextAlias, u.columns.map Column.name⟩ : Offer) ∈
        (Source.join (.of (.table u.name (some (existsAlias between.nextAlias)))) .inner
          (.table target.name (some (existsAlias d.nextAlias))) (p.pairsEq
            (existsAlias between.nextAlias) (existsAlias d.nextAlias) toChild)).offers c := by
      rw [Source.offers_join]
      exact List.mem_append_left _ hjunction.offered
    rw [hs.table_id hu]
    exact ⟨by omega, hjoined, hjoined.ties hs ht hu htoParent hentry⟩

theorem mem_of_otherTable {scope : Scope} {field : Field} {t : Table}
    (h : p.otherTable scope field = .ok (some t)) : t ∈ p.schema.tables := by
  obtain ⟨found, hfound, h⟩ := except_bind_ok.mp h
  have hkept : found.filter (fun t => t.id != scope.table.id) = some t := Except.ok.inj h
  rw [(Option.filter_eq_some_iff.mp hkept).1] at hfound
  exact Resolver.mem_of_shapeTable hfound

theorem relatedExists_settles {first next : Nat} {source : Source} {aliasName : String} {t : Table}
    (h : Numbered c columns clauses first next source aliasName t) {tie filters : Expr}
    {scopes : Scopes}
    (htie : AllAsked columns clauses (tie.collect (.sites c) (source.offers c :: scopes)))
    (hfilters : d.Settles s c columns clauses (filters.collect (.sites c) (source.offers c :: scopes))) :
    d.Settles s c columns clauses ((relatedExists source tie filters).collect (.sites c) scopes) := by
  unfold relatedExists
  split
  · rw [Expr.collect]
    exact probe_settles (fun _ => h.apart) ((h.parts scopes).settles d) (htie.settles d)
  · exact exists_settles (fun _ => h.apart) ((h.parts scopes).settles d) (htie.settles d) hfilters

/-- A condition on the rows of a scope, planned between two drafts, asks for nothing but columns of the
scope's table and what its own subqueries join. -/
def Confined (s : Schema) (c : Catalog) (columns clauses : Prop) (d d' : Draft) (scope : Scope)
    (e : Expr) : Prop :=
  ∀ scopes : Scopes, (columns → d.Spares scope.aliasName) →
    (columns → scopes.Reads scope.aliasName scope.table) →
      d'.Settles s c columns clauses (e.collect (.sites c) scopes)

/-- The conjunction of confined conditions is confined. -/
theorem confined_allOf {scope : Scope} {operands : List Expr}
    (h : ∀ e ∈ operands, Confined s c columns clauses d d' scope e) :
    Confined s c columns clauses d d' scope (.allOf operands) := by
  intro scopes hspared hreads site hsite
  rw [Expr.collect_allOf] at hsite
  obtain ⟨e, he, hsite⟩ := List.mem_flatMap.mp hsite
  exact h e he scopes hspared hreads site hsite

mutual

theorem fieldFilter_confined (columns clauses : Prop) (hs : p.schema.Sound)
    (hkeyed : p.schema.Keyed) (hc : c.Knows p.schema) :
    ∀ (t : FieldTree) (scope : Scope) (ignore : Option Ignore) {d d' : Draft} {e : Expr},
      scope.table ∈ p.schema.tables → d.Sound →
      (p.fieldFilter scope ignore t).run d = .ok (e, d') →
        d.nextAlias ≤ d'.nextAlias ∧ Confined p.schema c columns clauses d d' scope e
  | .node field kids, scope, ignore, d, d', e, hscope, hd, hrun => by
    cases translates_of_fieldFilter hrun with
    | via _ hcondition hguard =>
      obtain ⟨hlater, hsettled⟩ := viaExists_settles hs hkeyed hc hscope hcondition
      obtain ⟨hsame, hguarded⟩ := guarded_settles hguard
      refine ⟨by omega, ?_⟩
      intro scopes hspared hreads
      exact hguarded scopes (hsettled scopes hspared hreads)
    | @column column _ _ _ _ hcolumn hpredicate =>
      obtain ⟨hsame, hsettled⟩ := predicate_settles hpredicate
      refine ⟨by omega, ?_⟩
      intro scopes _ hreads
      exact hsettled scopes fun hasked => hreads hasked column (Resolver.mem_of_column hcolumn)
    | cyclic =>
      refine ⟨Nat.le_refl _, ?_⟩
      intro scopes _ _
      rw [Expr.collect_tautology]
      exact Draft.settles_nil
    | here _ _ _ hoperands hguard =>
      obtain ⟨hlater, hconfined⟩ :=
        nestedFilters_confined columns clauses hs hkeyed hc kids scope hscope hd hoperands
      obtain ⟨hsame, hguarded⟩ := guarded_settles hguard
      refine ⟨by omega, ?_⟩
      intro scopes hspared hreads
      exact hguarded scopes (confined_allOf hconfined scopes hspared hreads)
    | @linked target _ tied _ _ between _ _ _ _ _ htarget hlink hlinked hoperands hguard =>
      have hmem := mem_of_otherTable htarget
      obtain ⟨hlater, hnumbered, hties⟩ := linked_numbered columns clauses hs hc hscope hmem
        (Resolver.link_sound hs hscope hmem hlink)
        (Resolver.link_between hs hkeyed hscope hmem hlink) hlinked
      have hbetween := (p.linked_extends hd hlinked).1.sound
      obtain ⟨hinner, hconfined⟩ := nestedFilters_confined columns clauses hs hkeyed hc kids
        ⟨tied.1, target⟩ hmem hbetween hoperands
      obtain ⟨hsame, hguarded⟩ := guarded_settles hguard
      refine ⟨by omega, ?_⟩
      intro scopes hspared hreads
      apply hguarded scopes
      apply relatedExists_settles hnumbered (hties scopes hspared hreads)
      apply confined_allOf hconfined
      · intro _
        obtain ⟨k, _, hk, hname⟩ := hnumbered.alias_lt
        show Draft.Spares between tied.1
        rw [hname]
        exact Draft.spares_existsAlias hk
      · exact fun _ => hnumbered.reads scopes

theorem nestedFilters_confined (columns clauses : Prop) (hs : p.schema.Sound)
    (hkeyed : p.schema.Keyed) (hc : c.Knows p.schema) :
    ∀ (ts : List FieldTree) (scope : Scope) {d d' : Draft} {es : List Expr},
      scope.table ∈ p.schema.tables → d.Sound → (p.nestedFilters scope ts).run d = .ok (es, d') →
        d.nextAlias ≤ d'.nextAlias ∧ ∀ e ∈ es, Confined p.schema c columns clauses d d' scope e
  | [], scope, d, d', es, hscope, hd, hrun => by
    rw [nestedFilters, run_pure_ok] at hrun
    obtain ⟨rfl, rfl⟩ := hrun
    exact ⟨Nat.le_refl _, nofun⟩
  | t :: ts, scope, d, d', es, hscope, hd, hrun => by
    rcases nestedFilters_cons hrun with ⟨_, first, between, rest, hfirst, hrest, rfl⟩ | ⟨_, hrest⟩
    · have hextends := (p.fieldFilter_extends t scope _ hd hfirst).1
      obtain ⟨hnext, hhead⟩ :=
        fieldFilter_confined columns clauses hs hkeyed hc t scope _ hscope hd hfirst
      obtain ⟨hlater, htail⟩ :=
        nestedFilters_confined columns clauses hs hkeyed hc ts scope hscope hextends.sound hrest
      have hafter := (p.nestedFilters_extends ts scope hextends.sound hrest).1
      refine ⟨by omega, ?_⟩
      intro e he scopes hspared hreads
      rcases List.mem_cons.mp he with rfl | hother
      · exact hafter.settles (hhead scopes hspared hreads)
      · exact htail e hother scopes (fun hasked => (hspared hasked).later hnext) hreads
    · exact nestedFilters_confined columns clauses hs hkeyed hc ts scope hscope hd hrest

end

end Planner

end ShapeSql
