import Mathlib.Data.List.Nodup
import Mathlib.Tactic.Simps.Basic
import ShapeSql.Proofs.Sql.Related

/-!
Scopes. A query names the row sources of its FROM clause and those of the queries around it, the
nearest first; a row source offers the columns of its table, or those that a derived table projects.
What a statement asks of scopes are its sites: the columns it reads through an alias, the aliases that
a FROM clause lists together, and the holes, each with what is in scope there. Filling a hole puts the
sites of its fragment in its place.
-/

namespace ShapeSql.Sql

/-- The columns of tables and of table variables, by their names. -/
structure Catalog where
  tables : String → List String
  tableVars : String → List String

/-- The columns of the tables of a schema. -/
def Catalog.ofSchema (s : Schema) : Catalog where
  tables name := match s.tables.find? fun t => t.name == name with
    | some t => t.columns.map Column.name
    | none => []
  tableVars _ := []

/-- The columns of the tables of a schema, and of the variables that a batch declares. -/
def Batch.catalog (batch : Batch) (s : Schema) : Catalog where
  tables := (Catalog.ofSchema s).tables
  tableVars name := batch.flatMap fun
    | .declare declared columns => if declared = name then columns.map ColumnDef.name else []
    | _ => []

/-- A row source in scope: the name it goes by, and its columns. -/
structure Offer where
  aliasName : String
  columns : List String
  deriving DecidableEq, Repr

/-- The row sources in scope, those of the innermost query first. -/
abbrev Scopes := List (List Offer)

/-- The alias is one of the nearest query that has a row source of this name, up to case, and any row
source there that it may stand for has the column. -/
def Scopes.Resolve (aliasName column : String) : Scopes → Prop
  | [] => False
  | scope :: outer =>
    if scope.any fun offer => sameName offer.aliasName aliasName then
      ∀ offer ∈ scope, sameName offer.aliasName aliasName = true → column ∈ offer.columns
    else Resolve aliasName column outer

/-- No two of the names agree up to case. -/
def Apart (names : List String) : Prop := (names.map lowerAscii).Nodup

instance (names : List String) : Decidable (Apart names) :=
  inferInstanceAs (Decidable (names.map lowerAscii).Nodup)

/-- What a statement asks of the scopes it is read in. -/
inductive Site where
  /-- A column read through an alias. -/
  | column (scopes : Scopes) (aliasName name : String)
  /-- The aliases of one FROM clause. -/
  | clause (aliases : List String)
  | hole (place : Place) (scopes : Scopes) (id : HoleId)
  deriving DecidableEq

/-- What a row source offers under its name. -/
def Factor.offer (c : Catalog) : Factor → Offer
  | .table name aliasName => ⟨aliasName.getD name, c.tables name⟩
  | .tableVar name aliasName => ⟨aliasName.getD name, c.tableVars name⟩
  | .derived query aliasName => ⟨aliasName, query.projection.filterMap Projected.aliasName⟩

/-- The aliases of a FROM clause. -/
def Source.aliases (s : Source) : List String := s.factors.map Factor.reference

def Source.offers (c : Catalog) (s : Source) : List Offer := s.factors.map (Factor.offer c)

/-- The scopes within a query that is read in `outer`. -/
def Query.scopes (c : Catalog) (outer : Scopes) (q : Query) : Scopes :=
  q.factors.map (Factor.offer c) :: outer

/-- A column of one of the row sources in scope. -/
@[simp] def Site.ofColumn (scopes : Scopes) : Option Qualifier → String → List Site
  | some (.source aliasName), name => [.column scopes aliasName name]
  | some .inserted, _ | none, _ => []

/-- What statements ask of scopes: each part is read in those that are around it. -/
@[simps column param tableVar ordering clause]
def Collector.sites (c : Catalog) : Collector Scopes Site where
  inside factors outer := factors.map (Factor.offer c) :: outer
  column := Site.ofColumn
  hole scopes place id := [.hole place scopes id]
  clause s := [.clause s.aliases]

def Batch.sites (batch : Batch) (s : Schema) : List Site :=
  batch.flatMap (Statement.collect (.sites (batch.catalog s)) [])

theorem Factor.aliasName_offer (c : Catalog) (s : Factor) : (s.offer c).aliasName = s.reference := by
  cases s with
  | table _ _ | tableVar _ _ | derived _ _ => rfl

theorem Source.aliases_eq (c : Catalog) (s : Source) :
    s.aliases = (s.offers c).map Offer.aliasName := by
  simp [aliases, offers, Function.comp_def, Factor.aliasName_offer]

theorem Apart.append_singleton {names : List String} {name : String} (h : Apart names)
    (hnew : ∀ other ∈ names, sameName other name = false) : Apart (names ++ [name]) := by
  rw [Apart, List.map_append, List.map_singleton]
  refine List.nodup_append.mpr ⟨h, List.nodup_singleton _, ?_⟩
  intro lowered hlowered last hlast
  obtain ⟨other, hother, rfl⟩ := List.mem_map.mp hlowered
  rw [List.mem_singleton.mp hlast]
  have hne := hnew other hother
  rw [sameName, beq_eq_false_iff_ne] at hne
  exact hne

namespace Scopes

variable {scope : List Offer} {outer : Scopes}

/-- Among row sources with names apart, one is read through its own. -/
theorem resolve_of_apart (h : Apart (scope.map Offer.aliasName)) {offer : Offer}
    (hoffer : offer ∈ scope) {column : String} (hcolumn : column ∈ offer.columns) :
    Resolve offer.aliasName column (scope :: outer) := by
  rw [Resolve, if_pos]
  · intro other hother hname
    have hsame : other = offer := by
      rw [Apart, List.map_map] at h
      apply List.inj_on_of_nodup_map h hother hoffer
      simpa [sameName] using hname
    rw [hsame]
    exact hcolumn
  · exact List.any_eq_true.mpr ⟨offer, hoffer, sameName_self _⟩

/-- An alias that the nearest query does not have is looked for further out. -/
theorem resolve_outer {aliasName column : String}
    (hnone : ∀ offer ∈ scope, sameName offer.aliasName aliasName = false)
    (h : Resolve aliasName column outer) : Resolve aliasName column (scope :: outer) := by
  rw [Resolve, if_neg]
  · exact h
  · intro hany
    obtain ⟨offer, hoffer, hname⟩ := List.any_eq_true.mp hany
    rw [hnone offer hoffer] at hname
    cases hname

end Scopes

section Sites

variable {c : Catalog} {outer : Scopes}

@[simp] theorem Expr.sites_columnOf (aliasName name : String) :
    (columnOf aliasName name).collect (.sites c) outer = [.column outer aliasName name] := by
  rw [columnOf, collect, Collector.sites_column, Site.ofColumn]

theorem Factor.sites_tableVar (name : String) (aliasName : Option String) :
    (tableVar name aliasName).collect (.sites c) outer = [] := by
  rw [collect, Collector.sites_tableVar]

namespace Source

@[simp] theorem aliases_of (base : Factor) : (Source.of base).aliases = [base.reference] := rfl

@[simp] theorem offers_of (base : Factor) : (Source.of base).offers c = [base.offer c] := rfl

@[simp] theorem aliases_join (s : Source) (kind : JoinKind) (factor : Factor) (on : Expr) :
    (s.join kind factor on).aliases = s.aliases ++ [factor.reference] := by
  simp [aliases]

@[simp] theorem offers_join (s : Source) (kind : JoinKind) (factor : Factor) (on : Expr) :
    (s.join kind factor on).offers c = s.offers c ++ [factor.offer c] := by
  simp [offers]

/-- The condition of a join sees the row sources before it and its own. -/
@[simp] theorem inside_sites (s : Source) (factor : Factor) :
    (Collector.sites c).inside (s.factors ++ [factor]) outer =
      (s.offers c ++ [factor.offer c]) :: outer := by
  simp [Collector.sites, offers]

end Source

namespace Query

@[simp] theorem inside_sites (q : Query) :
    (Collector.sites c).inside q.factors outer = q.scopes c outer := rfl

@[simp] theorem scopes_reading (source : Source) :
    (reading source).scopes c outer = source.offers c :: outer := rfl

end Query

end Sites

section Filled

variable {c : Catalog} {f : HoleFiller} {P Q : Site → Prop}

/-- What is true of the sites of an open tree carries over to the filled one: sites that are no holes
stay, and those of what stands in a hole have the property wherever the hole has. -/
structure HoleFiller.Carries (f : HoleFiller) (c : Catalog) (P Q : Site → Prop) : Prop where
  column : ∀ scopes aliasName name, P (.column scopes aliasName name) →
    Q (.column scopes aliasName name)
  clause : ∀ aliases, P (.clause aliases) → Q (.clause aliases)
  expr : ∀ scopes id, P (.hole .expr scopes id) →
    ∀ site ∈ (f.expr id).collect (.sites c) scopes, Q site
  order : ∀ scopes id, P (.hole .order scopes id) →
    ∀ site ∈ orderItemsCollect (.sites c) scopes (f.order id), Q site
  assignments : ∀ scopes id, P (.hole .assignments scopes id) →
    ∀ site ∈ (f.assignments id).flatMap (Assignment.collect (.sites c) scopes), Q site
  rows : ∀ scopes id, P (.hole .rows scopes id) → ∀ site ∈ (f.rows id).collect (.sites c) scopes, Q site

theorem filterMap_aliasName_filled (ps : List Projected) :
    (projectedFilled f ps).filterMap Projected.aliasName = ps.filterMap Projected.aliasName := by
  induction ps with
  | nil => rfl
  | cons p ps ih =>
    obtain ⟨expr, aliasName⟩ := p
    rw [projectedFilled, List.filterMap_cons, List.filterMap_cons, ih]

/-- A row source offers the same columns when it is filled. -/
@[simp] theorem Factor.offer_filled (s : Factor) : (s.filled f).offer c = s.offer c := by
  cases s with
  | table name aliasName => rw [Factor.filled]
  | tableVar name aliasName => rw [Factor.filled]
  | derived query aliasName =>
    obtain ⟨distinct, projection, source, filter, groupBy, orderBy, offset, fetch⟩ := query
    rw [Factor.filled, Query.filled, offer, offer, filterMap_aliasName_filled]

@[simp] theorem Factor.reference_filled (s : Factor) : (s.filled f).reference = s.reference := by
  cases s with
  | table name aliasName => rw [Factor.filled]
  | tableVar name aliasName => rw [Factor.filled]
  | derived query aliasName => rw [Factor.filled, reference, reference]

theorem Source.aliases_filled (base : Factor) (joins : List Join) :
    Source.aliases ⟨base.filled f, joinsFilled f joins⟩ = Source.aliases ⟨base, joins⟩ := by
  simp [aliases, factors, map_factor_joinsFilled, Function.comp_def]

theorem HoleFiller.Carries.relates (h : f.Carries c P Q) :
    f.RelatesAll (.sites c) (.sites c) fun sites filled =>
      (∀ site ∈ sites, P site) → ∀ site ∈ filled, Q site where
  nil _ := List.forall_mem_nil _
  append h h' hsites := by
    rw [List.forall_mem_append] at hsites ⊢
    exact ⟨h hsites.1, h' hsites.2⟩
  inside factors outer := by simp [Collector.sites, Function.comp_def]
  column scopes qualifier name hsites := by
    match qualifier with
    | some (.source aliasName) =>
      exact List.forall_mem_singleton.mpr (h.column scopes aliasName name (hsites _ List.mem_cons_self))
    | some .inserted => exact List.forall_mem_nil _
    | none => exact List.forall_mem_nil _
  param _ _ _ := List.forall_mem_nil _
  emptyList h := h
  tableVar _ _ := List.forall_mem_nil _
  ordering _ _ := List.forall_mem_nil _
  clause base joins hsites := by
    rw [Collector.sites_clause, Source.aliases_filled]
    exact List.forall_mem_singleton.mpr (h.clause _ (hsites _ List.mem_cons_self))
  expr scopes id hsites := h.expr scopes id (hsites _ List.mem_cons_self)
  order scopes id hsites := h.order scopes id (hsites _ List.mem_cons_self)
  assignments scopes id hsites := h.assignments scopes id (hsites _ List.mem_cons_self)
  rows scopes id hsites := h.rows scopes id (hsites _ List.mem_cons_self)

end Filled

end ShapeSql.Sql
