import ShapeSql.Proofs.Plan.Draft
import ShapeSql.Proofs.Sql.Scope

/-!
What the sites of planned statements come to. A site is settled when the column it reads resolves and
the aliases of its clause are apart, as far as either is asked for, and when a hole is one that a rule
fills with a fragment whose own sites are settled in the same scopes. Expanding holes goes down the
rules, so the number of rules bounds it, and a draft that is extended settles all that it did before.
-/

namespace ShapeSql

open Sql

/-- The columns of the table are read through the alias. -/
def Sql.Scopes.Reads (scopes : Scopes) (aliasName : String) (t : Table) : Prop :=
  ∀ column ∈ t.columns, scopes.Resolve aliasName column.name

/-- The sites that a fragment of the action may have in these scopes. A dynamic ordering may read any
column of its tables. -/
def Action.sites (s : Schema) (c : Catalog) (scopes : Scopes) : Action → List Site
  | .predicate p => p.column.collect (.sites c) scopes
  | .guard _ expr | .order expr => expr.collect (.sites c) scopes
  | .dynamicOrder first others => (first :: others).flatMap fun target =>
    (s.table target.table).columns.map fun column => .column scopes target.aliasName column.name
  | .keyMatch columns _ => columns.flatMap fun key => key.1.collect (.sites c) scopes
  | .assign _ _ _ | .rows _ => []

namespace Sql.Site

/-- What is asked of a site without holes: that columns resolve if `columns` holds, and that aliases
are apart if `clauses` does. -/
def Asked (columns clauses : Prop) : Site → Prop
  | .column scopes aliasName name => columns → scopes.Resolve aliasName name
  | .clause aliases => clauses → Apart aliases
  | .hole _ _ _ => False

/-- What is asked is true of the site, holes expanded at most `depth` times. -/
def Settled (s : Schema) (c : Catalog) (columns clauses : Prop) (rules : List HoleRule) :
    Nat → Site → Prop
  | 0, .hole _ _ _ => False
  | depth + 1, .hole place scopes id => ∃ rule ∈ rules, rule.hole = id ∧ rule.action.place = place ∧
    ∀ site ∈ rule.action.sites s c scopes, Settled s c columns clauses rules depth site
  | _, site => site.Asked columns clauses

section

variable {s : Schema} {c : Catalog} {columns clauses : Prop} {rules more : List HoleRule} {depth : Nat}

theorem settled_column {scopes : Scopes} {aliasName name : String} :
    (Site.column scopes aliasName name).Settled s c columns clauses rules depth ↔
      (columns → scopes.Resolve aliasName name) := by
  cases depth with
  | zero => exact Iff.rfl
  | succ depth => exact Iff.rfl

theorem settled_clause {aliases : List String} :
    (Site.clause aliases).Settled s c columns clauses rules depth ↔
      (clauses → Apart aliases) := by
  cases depth with
  | zero => exact Iff.rfl
  | succ depth => exact Iff.rfl

/-- Without a hole there is nothing to expand. -/
theorem Asked.settled {site : Site} (h : site.Asked columns clauses) :
    site.Settled s c columns clauses rules depth := by
  cases site with
  | column _ _ _ => exact settled_column.mpr h
  | clause _ => exact settled_clause.mpr h
  | hole _ _ _ => exact h.elim

/-- Further rules and a greater depth settle no less. -/
theorem Settled.mono {depth' : Nat} (hdepth : depth ≤ depth') {site : Site}
    (h : site.Settled s c columns clauses rules depth) :
    site.Settled s c columns clauses (rules ++ more) depth' := by
  induction depth generalizing depth' site with
  | zero =>
    cases site with
    | column _ _ _ => exact settled_column.mpr h
    | clause _ => exact settled_clause.mpr h
    | hole _ _ _ => exact h.elim
  | succ depth ih =>
    obtain ⟨depth', rfl⟩ : ∃ k, depth' = k + 1 := ⟨depth' - 1, by omega⟩
    cases site with
    | column _ _ _ => exact h
    | clause _ => exact h
    | hole place scopes id =>
      obtain ⟨rule, hrule, hid, hplace, hsites⟩ := h
      refine ⟨rule, List.mem_append_left _ hrule, hid, hplace, ?_⟩
      intro site hsite
      exact ih (by omega) (hsites site hsite)

theorem Settled.deeper {site : Site} (h : site.Settled s c columns clauses rules depth) :
    site.Settled s c columns clauses rules (depth + 1) := by
  have hmore : site.Settled s c columns clauses (rules ++ []) (depth + 1) :=
    h.mono (Nat.le_succ depth)
  rw [List.append_nil] at hmore
  exact hmore

end

end Sql.Site

namespace Draft

/-- The sites are settled by the rules recorded so far. -/
def Settles (s : Schema) (c : Catalog) (columns clauses : Prop) (d : Draft) (sites : List Site) :
    Prop :=
  ∀ site ∈ sites, site.Settled s c columns clauses d.rules d.rules.length

variable {s : Schema} {c : Catalog} {columns clauses : Prop} {d d' : Draft} {xs ys : List Site}

theorem settles_append : d.Settles s c columns clauses (xs ++ ys) ↔
    d.Settles s c columns clauses xs ∧ d.Settles s c columns clauses ys :=
  List.forall_mem_append

theorem settles_nil : d.Settles s c columns clauses [] := nofun

theorem settles_column {scopes : Scopes} {aliasName name : String}
    (h : columns → scopes.Resolve aliasName name) :
    d.Settles s c columns clauses [.column scopes aliasName name] := by
  intro site hsite
  rw [List.mem_singleton.mp hsite]
  exact Site.settled_column.mpr h

/-- Settled sites stay settled. -/
theorem Extends.settles {marked : List (Place × Path)} (h : d.Extends marked d')
    (hsites : d.Settles s c columns clauses xs) : d'.Settles s c columns clauses xs := by
  obtain ⟨more, hmore, _⟩ := h.rules
  intro site hsite
  rw [hmore]
  exact (hsites site hsite).mono (by rw [List.length_append]; omega)

end Draft

namespace Planning

variable {s : Schema} {c : Catalog} {columns clauses : Prop} {d d' : Draft}

/-- The hole of a new rule is settled wherever the sites of its action are. -/
theorem rule_settles {path : Path} {action : Action} {hole : HoleId} {scopes : Scopes}
    (hsites : d.Settles s c columns clauses (action.sites s c scopes))
    (hrun : (rule path action).run d = .ok (hole, d')) :
    d'.Settles s c columns clauses [.hole action.place scopes hole] := by
  cases hrun
  intro site hsite
  rw [List.mem_singleton.mp hsite]
  let new : HoleRule := ⟨⟨d.nextHole⟩, path, action⟩
  have hlength : (d.rules ++ [new]).length = d.rules.length + 1 := by
    rw [List.length_append, List.length_singleton]
  show Site.Settled s c columns clauses (d.rules ++ [new]) (d.rules ++ [new]).length _
  rw [hlength]
  have hrule : new ∈ d.rules ++ [new] := List.mem_append_right _ (List.mem_singleton.mpr rfl)
  refine ⟨_, hrule, rfl, rfl, ?_⟩
  intro site hsite
  exact (hsites site hsite).mono (Nat.le_refl _)

end Planning

section Names

/-- The name of the `k`th subquery table. -/
def existsAlias (k : Nat) : String := "__exists" ++ toString k

theorem toList_lower_existsAlias (k : Nat) :
    (lowerAscii (existsAlias k)).toList = "__exists".toList ++ digits k := by
  have hplain : (existsAlias k).toList = "__exists".toList ++ digits k := by
    change ("__exists" ++ Nat.repr k).toList = _
    rw [String.toList_append, Nat.toList_repr]
    rfl
  rw [toList_lowerAscii, hplain, List.map_append, map_toLower_digits]
  rfl

theorem lower_existsAlias_injective : Function.Injective fun k => lowerAscii (existsAlias k) := by
  intro m n hmn
  have hlists := congrArg String.toList hmn
  simp only [toList_lower_existsAlias] at hlists
  exact digits_injective (List.append_cancel_left hlists)

/-- A name that starts otherwise is no subquery table's. -/
theorem sameName_existsAlias_of_start {name : String}
    (h : "__exists".toList.isPrefixOf (lowerAscii name).toList = false) (k : Nat) :
    sameName (existsAlias k) name = false := by
  rw [sameName, beq_eq_false_iff_ne]
  intro hsame
  rw [← hsame, toList_lower_existsAlias] at h
  rw [List.isPrefixOf_iff_prefix.mpr (List.prefix_append _ _)] at h
  cases h

theorem sameName_existsAlias {m n : Nat} :
    sameName (existsAlias m) (existsAlias n) = true ↔ m = n := by
  constructor
  · intro h
    apply lower_existsAlias_injective
    simpa [sameName] using h
  · rintro rfl
    exact sameName_self _

/-- No subquery table still to come is named like this. -/
def Draft.Spares (d : Draft) (aliasName : String) : Prop :=
  ∀ k, d.nextAlias ≤ k → sameName (existsAlias k) aliasName = false

theorem Draft.Spares.later {d d' : Draft} {aliasName : String} (h : d.Spares aliasName)
    (hlater : d.nextAlias ≤ d'.nextAlias) : d'.Spares aliasName :=
  fun k hk => h k (Nat.le_trans hlater hk)

/-- A table named before is spared. -/
theorem Draft.spares_existsAlias {d : Draft} {k : Nat} (hk : k < d.nextAlias) :
    d.Spares (existsAlias k) := by
  intro n hn
  rw [Bool.eq_false_iff]
  intro hsame
  have := sameName_existsAlias.mp hsame
  omega

theorem Planning.freshAlias_eq {d d' : Draft} {name : String}
    (hrun : (freshAlias "__exists").run d = .ok (name, d')) :
    name = existsAlias d.nextAlias ∧ d'.nextAlias = d.nextAlias + 1 ∧ d'.rules = d.rules := by
  cases hrun
  exact ⟨rfl, rfl, rfl⟩

end Names

end ShapeSql
