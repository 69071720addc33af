import Mathlib.Tactic.Simps.Basic
import ShapeSql.Proofs.Plan.WriteOrder
import ShapeSql.Proofs.Sql.Collector

namespace ShapeSql

open Sql Planning

namespace Sql

/-- The table variables that a statement names: those it reads rows from, in its FROM clause or in that
of a query within it, and those it writes rows to. Declaring a variable is no use of it. -/
@[simps tableVar ordering]
def Collector.variables : Collector Unit String where
  tableVar name := [name]

instance : Collector.variables.Plain := ⟨fun _ _ _ => rfl, fun _ => rfl⟩

/-- What a statement of a write does. -/
inductive Role where
  | declares (name : String)
  | fills (name : String)
  /-- Cells of one variable go into rows of another one. -/
  | transfers (into source : String)
  | merges (name : String)
  | updates (name : String)
  /-- The rows of two variables are paired in a junction. -/
  | pairs (rows owners : String)
  | removes
  | selects
  | other
  deriving DecidableEq, Repr

/-- The variables between which a FROM clause goes, each of its two row sources being one. -/
def Source.ends? : Source → Option (String × String)
  | ⟨.tableVar first _, [⟨_, .tableVar second _, _⟩]⟩ => some (first, second)
  | _ => none

/-- The variable that a FROM clause joins to a table. -/
def Source.joined? : Source → Option String
  | ⟨.table _ _, [⟨_, .tableVar name _, _⟩]⟩ => some name
  | _ => none

namespace Statement

/-- The role of a statement, by the variables that it names. -/
def role : Statement → Role
  | .declare name _ => .declares name
  | .insert (.tableVar name) _ _ => .fills name
  | .insert (.table _) _ (.query q) =>
    match q.source.bind Source.ends? with
    | some (rows, owners) => .pairs rows owners
    | none => .other
  | .insert (.table _) _ _ => .other
  | .merge m =>
    match m.source with
    | .tableVar name _ => .merges name
    | _ => .other
  | .update u =>
    match u.source.bind Source.ends?, u.source.bind Source.joined? with
    | some (into, source), _ => .transfers into source
    | none, some name => .updates name
    | none, none => .other
  | .delete _ _ => .removes
  | .query _ => .selects

end Statement

/-- The rows that a role works on, those of a written table. -/
def Role.subject? : Role → Option String
  | .transfers name _ | .merges name | .updates name | .pairs name _ => some name
  | .declares _ | .fills _ | .removes | .selects | .other => none

def Batch.roles (batch : Batch) : List Role := batch.map Statement.role

end Sql

namespace WrittenTable

variable (t : WrittenTable)

theorem toList_lookup : t.lookup.toList = "lookup".toList ++ digits t.index := by
  change ("lookup" ++ Nat.repr t.index).toList = _
  rw [String.toList_append, Nat.toList_repr]
  rfl

theorem toList_output : t.output.toList = "output".toList ++ digits t.index := by
  change ("output" ++ Nat.repr t.index).toList = _
  rw [String.toList_append, Nat.toList_repr]
  rfl

variable {t} {u : WrittenTable}

/-- Tables of different numbers have different variables. -/
theorem lookup_eq_iff : t.lookup = u.lookup ↔ t.index = u.index := by
  constructor
  · intro h
    have hlists := congrArg String.toList h
    rw [toList_lookup, toList_lookup] at hlists
    exact digits_injective (List.append_cancel_left hlists)
  · intro h
    rw [lookup, lookup, h]

theorem output_eq_iff : t.output = u.output ↔ t.index = u.index := by
  constructor
  · intro h
    have hlists := congrArg String.toList h
    rw [toList_output, toList_output] at hlists
    exact digits_injective (List.append_cancel_left hlists)
  · intro h
    rw [output, output, h]

theorem lookup_ne_output : t.lookup ≠ u.output := by
  intro h
  have hlists := congrArg String.toList h
  rw [toList_lookup, toList_output] at hlists
  exact absurd (congrArg List.head? hlists) (by simp)

section Roles

variable {p : Planner} {s : Schema}

@[simp] theorem role_declareLookup : t.declareLookup.role = .declares t.lookup := rfl

@[simp] theorem role_declareOutput : t.declareOutput.role = .declares t.output := rfl

@[simp] theorem role_writeBack : t.writeBack.role = .transfers t.lookup t.output := rfl

@[simp] theorem role_mergeRows (upsert : Bool) : (t.mergeRows upsert).role = .merges t.lookup := rfl

@[simp] theorem role_copyKeys (other : WrittenTable) (columns : List (ColumnId × ColumnId))
    (own others : String) :
    (t.copyKeys s other columns own others).role = .transfers t.lookup other.lookup := rfl

theorem role_updateRows {st : Statement} (h : t.updateRows = some st) :
    st.role = .updates t.lookup := by
  obtain ⟨_, rfl⟩ := updateRows_inv h
  rfl

end Roles

end WrittenTable

namespace Planner

variable {p : Planner} {d d' : Draft}

theorem source_foldl_project {α : Type} (aliasName : String) (name : α → String) (items : List α)
    (q : Query) : (items.foldl (fun (q : Query) a =>
      q.project (.columnOf aliasName (name a)) none) q).source = q.source := by
  induction items generalizing q with
  | nil => rfl
  | cons a items ih => rw [List.foldl_cons, ih, Query.project]

@[simp] theorem role_insertJunction (p : Planner) (t parent : WrittenTable) (junction : Table)
    (toParent toChild : List JoinPair) (upsert : Bool) :
    (p.insertJunction t parent junction toParent toChild upsert).role =
      .pairs t.lookup parent.lookup := by
  have hsource : (toChild.foldl (fun query pair =>
      query.project (.columnOf "l" (p.schema.columnName pair.child)) none)
      (toParent.foldl (fun query pair =>
        query.project (.columnOf "p" (p.schema.columnName pair.parent)) none)
        (Query.reading (t.withOwner parent)))).source = some (t.withOwner parent) := by
    rw [source_foldl_project "l" fun pair : JoinPair => p.schema.columnName pair.child,
      source_foldl_project "p" fun pair : JoinPair => p.schema.columnName pair.parent]
    rfl
  have hends : (some (t.withOwner parent)).bind Source.ends? = some (t.lookup, parent.lookup) := rfl
  rw [insertJunction, Statement.role]
  cases upsert with
  | false => rw [if_neg Bool.false_ne_true, hsource, hends]
  | true => rw [if_pos rfl, Query.restrict, hsource, hends]

section Tables

variable {upsert : Bool} {v : Tree.Visit WrittenTable} {r : Role}

/-- The keys of the other table are copied into the rows of the visited one, which refers to it. -/
def Copies (v : Tree.Visit WrittenTable) (other : WrittenTable) : Prop :=
  (v.parent? = some other ∧ ∃ pairs, v.label.link = some (.childHolds pairs)) ∨
    (other ∈ v.children ∧ ∃ pairs, other.link = some (.parentHolds pairs))

/-- The rows of the visited table are paired with those of the one above it. -/
def Pairs (v : Tree.Visit WrittenTable) (parent : WrittenTable) : Prop :=
  v.parent? = some parent ∧
    ∃ junction toParent toChild, v.label.link = some (.junction junction toParent toChild)

theorem mem_roles_copiedKeys : r ∈ (p.copiedKeys v).roles ↔
    ∃ other, r = .transfers v.label.lookup other.lookup ∧ Copies v other := by
  rw [Batch.roles, copiedKeys, List.map_append, List.mem_append]
  constructor
  · rintro (hown | hbelow)
    · split at hown
      · rename_i parent pairs hparent hlink
        rw [List.map_singleton, List.mem_singleton] at hown
        exact ⟨parent, hown, Or.inl ⟨hparent, pairs, hlink⟩⟩
      · cases hown
    · obtain ⟨st, hst, rfl⟩ := List.mem_map.mp hbelow
      obtain ⟨child, hchild, hst⟩ := List.mem_filterMap.mp hst
      split at hst
      · rename_i pairs hlink
        cases hst
        exact ⟨child, rfl, Or.inr ⟨hchild, pairs, hlink⟩⟩
      · cases hst
  · rintro ⟨other, rfl, ⟨hparent, pairs, hlink⟩ | ⟨hchild, pairs, hlink⟩⟩
    · left
      rw [hparent, hlink]
      exact List.mem_singleton.mpr rfl
    · right
      refine List.mem_map.mpr ⟨v.label.copyKeys p.schema other
        (pairs.map fun pair => (pair.parent, pair.child)) indexColumn parentColumn,
        List.mem_filterMap.mpr ⟨other, hchild, ?_⟩, rfl⟩
      rw [hlink]

/-- The roles of the statements that write keys back and update rows. -/
def keyedRoles (t : WrittenTable) (upsert : Bool) : List Role :=
  if t.table.hasKey then
    .transfers t.lookup t.output ::
      (if upsert then (t.updateRows.toList).map Statement.role else [])
  else []

/-- The role of the statement that pairs rows. -/
def pairedRoles (v : Tree.Visit WrittenTable) : List Role :=
  match v.parent?, v.label.link with
  | some parent, some (.junction _ _ _) => [.pairs v.label.lookup parent.lookup]
  | _, _ => []

/-- A table is written by copying keys, merging, writing back and pairing, in this order. -/
theorem roles_writeTable (p : Planner) (upsert : Bool) (v : Tree.Visit WrittenTable) :
    (p.writeTable upsert v).roles = (p.copiedKeys v).roles ++
      .merges v.label.lookup :: (keyedRoles v.label upsert ++ pairedRoles v) := by
  have hkeyed : (if v.label.table.hasKey then
      v.label.writeBack :: (if upsert then v.label.updateRows.toList else [])
      else []).map Statement.role = keyedRoles v.label upsert := by
    unfold keyedRoles
    split
    · rw [List.map_cons, WrittenTable.role_writeBack]
      split
      · rfl
      · rfl
    · rfl
  unfold writeTable pairedRoles
  simp only
  rw [Batch.roles, List.map_append, List.map_append, List.map_cons, hkeyed,
    WrittenTable.role_mergeRows, List.append_assoc, List.cons_append]
  cases v.parent? with
  | none => rfl
  | some parent =>
    cases v.label.link with
    | none => rfl
    | some link =>
      cases link with
      | parentHolds _ | childHolds _ => rfl
      | junction table toParent toChild =>
        simp only [List.map_cons, List.map_nil, role_insertJunction, Batch.roles]

theorem mem_keyedRoles {t : WrittenTable} (h : r ∈ keyedRoles t upsert) :
    t.table.hasKey = true ∧ (r = .transfers t.lookup t.output ∨ r = .updates t.lookup) := by
  unfold keyedRoles at h
  split at h
  · rename_i hkey
    refine ⟨hkey, ?_⟩
    rcases List.mem_cons.mp h with rfl | hupdate
    · exact Or.inl rfl
    · split at hupdate
      · obtain ⟨st, hst, rfl⟩ := List.mem_map.mp hupdate
        exact Or.inr (WrittenTable.role_updateRows (Option.mem_toList.mp hst))
      · cases hupdate
  · cases h

theorem writeBack_mem_keyedRoles {t : WrittenTable} (hkey : t.table.hasKey = true) :
    .transfers t.lookup t.output ∈ keyedRoles t upsert := by
  rw [keyedRoles, if_pos hkey]
  exact List.mem_cons_self

theorem mem_pairedRoles : r ∈ pairedRoles v ↔
    ∃ parent, r = .pairs v.label.lookup parent.lookup ∧ Pairs v parent := by
  unfold pairedRoles
  constructor
  · intro h
    split at h
    · rename_i parent junction toParent toChild hparent hlink
      exact ⟨parent, List.mem_singleton.mp h, hparent, junction, toParent, toChild, hlink⟩
    · cases h
  · rintro ⟨parent, rfl, hparent, junction, toParent, toChild, hlink⟩
    rw [hparent, hlink]
    exact List.mem_singleton.mpr rfl

/-- What a table is written by is copying keys into its rows, merging them, writing keys back, updating
or pairing. -/
theorem mem_roles_writeTable (h : r ∈ (p.writeTable upsert v).roles) :
    (∃ other, r = .transfers v.label.lookup other.lookup ∧ Copies v other) ∨
      r = .merges v.label.lookup ∨
      (v.label.table.hasKey = true ∧
        (r = .transfers v.label.lookup v.label.output ∨ r = .updates v.label.lookup)) ∨
      ∃ parent, r = .pairs v.label.lookup parent.lookup ∧ Pairs v parent := by
  rw [roles_writeTable] at h
  rcases List.mem_append.mp h with hcopied | hrest
  · exact Or.inl (mem_roles_copiedKeys.mp hcopied)
  · rcases List.mem_cons.mp hrest with rfl | hrest
    · exact Or.inr (Or.inl rfl)
    · rcases List.mem_append.mp hrest with hkeyed | hpaired
      · exact Or.inr (Or.inr (Or.inl (mem_keyedRoles hkeyed)))
      · exact Or.inr (Or.inr (Or.inr (mem_pairedRoles.mp hpaired)))

/-- All of it works on the rows of that table. -/
theorem subject_writeTable (h : r ∈ (p.writeTable upsert v).roles) :
    r.subject? = some v.label.lookup := by
  rcases mem_roles_writeTable h with ⟨_, rfl, _⟩ | rfl | ⟨_, rfl | rfl⟩ | ⟨_, rfl, _⟩
  · rfl
  · rfl
  · rfl
  · rfl
  · rfl

theorem writeBack_mem_roles (hkey : v.label.table.hasKey = true) :
    .transfers v.label.lookup v.label.output ∈ (p.writeTable upsert v).roles := by
  rw [roles_writeTable]
  exact List.mem_append_right _ (List.mem_cons_of_mem _
    (List.mem_append_left _ (writeBack_mem_keyedRoles hkey)))

end Tables

section Variables

/-- A variable of the tables of a tree: the rows of one, or the keys of one that has a key. -/
def Declared (tree : WrittenTree) (name : String) : Prop :=
  ∃ t ∈ tree.preorder, name = t.lookup ∨ (t.table.hasKey = true ∧ name = t.output)

variable {tree : WrittenTree} {t parent : WrittenTable} {name : String}

/-- What writes a table names its own variables and the rows of the tables around it. -/
theorem variables_writeTable {upsert : Bool} {v : Tree.Visit WrittenTable} {st : Statement}
    (hst : st ∈ p.writeTable upsert v) (h : name ∈ st.collect .variables ()) :
    (name = v.label.lookup ∨ (v.label.table.hasKey = true ∧ name = v.label.output)) ∨
      ∃ other, (v.parent? = some other ∨ other ∈ v.children) ∧ name = other.lookup := by
  simpa using mem_collect_writeTable hst h

theorem variables_removeStale {v : Tree.Visit WrittenTable} {st : Statement}
    (hst : st ∈ p.removeStale v) (h : name ∈ st.collect .variables ()) :
    name = v.label.lookup ∨ ∃ parent, v.parent? = some parent ∧ name = parent.lookup := by
  simpa using mem_collect_removeStale hst h

/-- The select of written rows names the variable of the target. -/
theorem variables_returning {output : FieldTree} {query : Query} {relations : Relations}
    (h : p.returning output = .ok (query, relations)) (hname : name ∈ query.collect .variables ()) :
    name = "lookup0" := by
  simpa using p.mem_collect_returning h hname

end Variables

/-- Where tables are written in an order without repetitions, between statements that work on no rows. -/
structure Between (order : List (Tree.Visit WrittenTable)) (pre post : List Role) : Prop where
  nodup : (order.map fun v => v.label.index).Nodup
  pre : ∀ r ∈ pre, r.subject? = none
  post : ∀ r ∈ post, r.subject? = none

namespace Between

variable {upsert : Bool} {order us ws : List (Tree.Visit WrittenTable)} {pre post xs ys : List Role}
  {u v : Tree.Visit WrittenTable} {first second : Role}

/-- The roles of all statements. -/
def roles (p : Planner) (upsert : Bool) (order : List (Tree.Visit WrittenTable))
    (pre post : List Role) : List Role :=
  pre ++ (order.flatMap fun v => (p.writeTable upsert v).roles) ++ post

theorem not_mem_of_apart {vs : List (Tree.Visit WrittenTable)} {t : WrittenTable}
    (hapart : ∀ v ∈ vs, v.label.index ≠ t.index) {r : Role} (hr : r.subject? = some t.lookup) :
    r ∉ vs.flatMap fun v => (p.writeTable upsert v).roles := by
  intro hmem
  obtain ⟨v, hv, hmem⟩ := List.mem_flatMap.mp hmem
  rw [subject_writeTable hmem, Option.some.injEq, WrittenTable.lookup_eq_iff] at hr
  exact hapart v hv hr

/-- What works on the rows of a table written before precedes what works on those of one after. -/
theorem across (h : Between (us ++ v :: ws) pre post) (hu : u ∈ us)
    (hfirst : first ∈ (p.writeTable upsert u).roles)
    (hsecond : second.subject? = some v.label.lookup) :
    Precedes (roles p upsert (us ++ v :: ws) pre post) first second := by
  have hnodup := h.nodup
  rw [List.map_append] at hnodup
  have hapart := (List.nodup_append.mp hnodup).2.2
  have hdiffer : ∀ x ∈ us, ∀ y ∈ v :: ws, x.label.index ≠ y.label.index := fun x hx y hy =>
    hapart _ (List.mem_map_of_mem hx) _ (List.mem_map_of_mem hy)
  rw [roles, List.flatMap_append, ← List.append_assoc, List.append_assoc]
  apply precedes_append
  · exact List.mem_append_right _ (List.mem_flatMap.mpr ⟨u, hu, hfirst⟩)
  · intro hmem
    rcases List.mem_append.mp hmem with hright | hpost
    · exact not_mem_of_apart (fun y hy => (hdiffer u hu y hy).symm) (subject_writeTable hfirst) hright
    · exact nomatch (h.post _ hpost).symm.trans (subject_writeTable hfirst)
  · intro hmem
    rcases List.mem_append.mp hmem with hpre | hleft
    · exact nomatch (h.pre _ hpre).symm.trans hsecond
    · exact not_mem_of_apart (fun x hx => hdiffer x hx v List.mem_cons_self) hsecond hleft

/-- What precedes in the statements of one table precedes among all. -/
theorem within (h : Between (us ++ v :: ws) pre post)
    (hroles : (p.writeTable upsert v).roles = xs ++ ys) (hfirst : first ∈ xs) (hnot : first ∉ ys)
    (hsecond : second.subject? = some v.label.lookup) (hnot' : second ∉ xs) :
    Precedes (roles p upsert (us ++ v :: ws) pre post) first second := by
  have hnodup := h.nodup
  rw [List.map_append, List.map_cons] at hnodup
  obtain ⟨_, hrest, hapart⟩ := List.nodup_append.mp hnodup
  have hleft : ∀ x ∈ us, x.label.index ≠ v.label.index := fun x hx =>
    hapart _ (List.mem_map_of_mem hx) _ List.mem_cons_self
  have hright : ∀ y ∈ ws, y.label.index ≠ v.label.index := fun y hy hsame =>
    (List.nodup_cons.mp hrest).1 (hsame ▸ List.mem_map_of_mem hy)
  have hmem : first ∈ (p.writeTable upsert v).roles := by
    rw [hroles]
    exact List.mem_append_left _ hfirst
  have hsplit : roles p upsert (us ++ v :: ws) pre post =
      (pre ++ (us.flatMap fun v => (p.writeTable upsert v).roles) ++ xs) ++
        (ys ++ (ws.flatMap fun v => (p.writeTable upsert v).roles) ++ post) := by
    rw [roles, List.flatMap_append, List.flatMap_cons, hroles]
    simp only [List.append_assoc]
  rw [hsplit]
  apply precedes_append
  · exact List.mem_append_right _ hfirst
  · intro hlate
    rcases List.mem_append.mp hlate with hlate | hpost
    · rcases List.mem_append.mp hlate with hys | hws
      · exact hnot hys
      · exact not_mem_of_apart hright (subject_writeTable hmem) hws
    · exact nomatch (h.post _ hpost).symm.trans (subject_writeTable hmem)
  · intro hearly
    rcases List.mem_append.mp hearly with hearly | hxs
    · rcases List.mem_append.mp hearly with hpre | hus
      · exact nomatch (h.pre _ hpre).symm.trans hsecond
      · exact not_mem_of_apart hleft hsecond hus
    · exact hnot' hxs

end Between

end Planner

end ShapeSql
