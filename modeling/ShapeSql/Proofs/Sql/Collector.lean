import Mathlib.Tactic.Tauto
import ShapeSql.Sql.Fragment

/-!
What statements consist of. A collector says what it takes from each part of a statement, in the context
that the part is read in; all that follows from how statements are built is said once, for any collector.
-/

namespace ShapeSql.Sql

/-- The places a hole can stand in, each for one kind of fragment. -/
inductive Place where
  | expr | order | assignments | rows
  deriving DecidableEq, Repr

/-- The row sources of a FROM clause. -/
def Source.factors (s : Source) : List Factor := s.base :: s.joins.map Join.factor

def Query.factors (q : Query) : List Factor := q.source.elim [] Source.factors

/-- What is taken from the parts of a statement, each read in a context. -/
structure Collector (κ β : Type) where
  /-- The context of what is read over row sources. -/
  inside : List Factor → κ → κ := fun _ k => k
  column : κ → Option Qualifier → String → List β := fun _ _ _ => []
  param : κ → String → List β := fun _ _ => []
  hole : κ → Place → HoleId → List β := fun _ _ _ => []
  /-- A list without items, with what is taken from the item that is looked for in it. -/
  emptyList : List β → List β := id
  /-- A table variable that is read or written. -/
  tableVar : String → List β := fun _ => []
  /-- The ordering of a query. -/
  ordering : List OrderItem → List β := fun _ => []
  /-- A FROM clause. -/
  clause : Source → List β := fun _ => []

section Collect

variable {κ β : Type} (g : Collector κ β)

mutual

@[simp] def Expr.collect (k : κ) : Expr → List β
  | .all operands | .any operands => exprsCollect k operands
  | .compare left _ right => left.collect k ++ right.collect k
  | .column qualifier name => g.column k qualifier name
  | .exists query _ => query.collect k
  | .group inner => inner.collect k
  | .hole id => g.hole k .expr id
  | .inList item [] _ => g.emptyList (item.collect k)
  | .inList item (first :: rest) _ => item.collect k ++ (first.collect k ++ exprsCollect k rest)
  | .isNull item _ => item.collect k
  | .like item pattern _ => item.collect k ++ pattern.collect k
  | .param name => g.param k name
  | .countAll | .int _ | .text _ | .null => []

@[simp] def exprsCollect (k : κ) : List Expr → List β
  | [] => []
  | e :: es => e.collect k ++ exprsCollect k es

@[simp] def optionalCollect (k : κ) : Option Expr → List β
  | none => []
  | some e => e.collect k

def Query.collect (k : κ) : Query → List β
  | ⟨_, projection, source, filter, groupBy, orderBy, offset, fetch⟩ =>
    let inner := g.inside (source.elim [] Source.factors) k
    g.ordering orderBy ++ (projectedCollect inner projection ++ (sourceCollect k source ++
      (optionalCollect inner filter ++ (exprsCollect inner groupBy ++ (orderItemsCollect inner orderBy ++
        (optionalCollect inner offset ++ optionalCollect inner fetch))))))

def projectedCollect (k : κ) : List Projected → List β
  | [] => []
  | ⟨expr, _⟩ :: rest => expr.collect k ++ projectedCollect k rest

def sourceCollect (k : κ) : Option Source → List β
  | none => []
  | some ⟨base, joins⟩ => g.clause ⟨base, joins⟩ ++ (base.collect k ++ joinsCollect k [base] joins)

/-- A join condition is read over the row sources joined so far, its own among them. -/
def joinsCollect (k : κ) (joined : List Factor) : List Join → List β
  | [] => []
  | ⟨_, factor, condition⟩ :: rest =>
    factor.collect k ++ (condition.collect (g.inside (joined ++ [factor]) k) ++
      joinsCollect k (joined ++ [factor]) rest)

@[simp] def Factor.collect (k : κ) : Factor → List β
  | .table _ _ => []
  | .tableVar name _ => g.tableVar name
  | .derived query _ => query.collect k

@[simp] def orderItemsCollect (k : κ) : List OrderItem → List β
  | [] => []
  | .term ⟨expr, _⟩ :: rest => expr.collect k ++ orderItemsCollect k rest
  | .hole id :: rest => g.hole k .order id ++ orderItemsCollect k rest

end

def Assignment.collect (k : κ) : Assignment → List β
  | .set _ value => value.collect g k
  | .hole id => g.hole k .assignments id

def InsertTarget.collect : InsertTarget → List β
  | .table _ => []
  | .tableVar name => g.tableVar name

def InsertSource.collect (k : κ) : InsertSource → List β
  | .rows data => data.flatMap (exprsCollect g k)
  | .hole id => g.hole k .rows id
  | .query q => q.collect g k

def MergeInsert.collect (k : κ) (m : MergeInsert) : List β := exprsCollect g k m.values

def OutputInto.collect (k : κ) (o : OutputInto) : List β := g.tableVar o.into ++ exprsCollect g k o.exprs

/-- Both sides of a merge are in scope, but the inserted values are read from the source alone. -/
def Merge.collect (k : κ) (m : Merge) : List β :=
  let inner := g.inside [m.target, m.source] k
  m.target.collect g k ++ (m.source.collect g k ++ (m.condition.collect g inner ++
    (m.matchedUpdate.flatMap (Assignment.collect g inner) ++
      (m.notMatchedInsert.elim [] (MergeInsert.collect g (g.inside [m.source] k)) ++
        m.output.elim [] (OutputInto.collect g inner)))))

/-- Without a FROM clause an update reads the table it changes. -/
def Update.factors (u : Update) : List Factor := u.source.elim [.table u.target none] Source.factors

def Update.collect (k : κ) (u : Update) : List β :=
  let inner := g.inside u.factors k
  u.assignments.flatMap (Assignment.collect g inner) ++
    (sourceCollect g k u.source ++ optionalCollect g inner u.filter)

def Statement.collect (k : κ) : Statement → List β
  | .declare _ _ => []
  | .delete source filter => source.collect g k ++ optionalCollect g (g.inside [source] k) filter
  | .insert target _ source => target.collect g ++ source.collect g k
  | .merge m => m.collect g k
  | .query q => q.collect g k
  | .update u => u.collect g k

def Fragment.collect (k : κ) : Fragment → List β
  | .expr e => e.collect g k
  | .order terms => terms.flatMap fun t => t.expr.collect g k
  | .assignments list => list.flatMap (Assignment.collect g k)
  | .rows data => data.flatMap (exprsCollect g k)

end Collect

/-- Without contexts, all parts are read alike. -/
@[simp] theorem Collector.inside_unit {β : Type} (g : Collector Unit β) (factors : List Factor)
    (k : Unit) : g.inside factors k = () := rfl

/-- Columns and FROM clauses have nothing of their own. -/
class Collector.Plain {κ β : Type} (g : Collector κ β) : Prop where
  column : ∀ k qualifier name, g.column k qualifier name = []
  clause : ∀ s, g.clause s = []

attribute [simp] Collector.Plain.column Collector.Plain.clause

section Laws

variable {κ β : Type} {g : Collector κ β} {k : κ} {x : β}

theorem exprsCollect_eq (es : List Expr) : exprsCollect g k es = es.flatMap (Expr.collect g k) := by
  induction es with
  | nil => rfl
  | cons e es ih => rw [exprsCollect, ih, List.flatMap_cons]

theorem exprsCollect_map {α : Type} {f : α → Expr} (h : ∀ a, (f a).collect g k = []) (items : List α) :
    exprsCollect g k (items.map f) = [] := by
  rw [exprsCollect_eq, List.flatMap_map, List.flatMap_eq_nil_iff]
  exact fun a _ => h a

theorem joinsCollect_append (joined : List Factor) (js ks : List Join) :
    joinsCollect g k joined (js ++ ks) =
      joinsCollect g k joined js ++ joinsCollect g k (joined ++ js.map Join.factor) ks := by
  induction js generalizing joined with
  | nil => simp [joinsCollect]
  | cons j js ih =>
    obtain ⟨kind, factor, condition⟩ := j
    simp only [List.cons_append, joinsCollect, ih, List.map_cons, List.append_assoc, List.nil_append]

theorem orderItemsCollect_append (xs ys : List OrderItem) :
    orderItemsCollect g k (xs ++ ys) = orderItemsCollect g k xs ++ orderItemsCollect g k ys := by
  induction xs with
  | nil => rfl
  | cons x xs ih =>
    rw [List.cons_append]
    cases x with
    | term t =>
      obtain ⟨expr, direction⟩ := t
      rw [orderItemsCollect, orderItemsCollect, ih, List.append_assoc]
    | hole id => rw [orderItemsCollect, orderItemsCollect, ih, List.append_assoc]

theorem projectedCollect_append (xs ys : List Projected) :
    projectedCollect g k (xs ++ ys) = projectedCollect g k xs ++ projectedCollect g k ys := by
  induction xs with
  | nil => rfl
  | cons x xs ih =>
    obtain ⟨expr, aliasName⟩ := x
    rw [List.cons_append, projectedCollect, projectedCollect, ih, List.append_assoc]

namespace Expr

@[simp] theorem collect_columnOf (aliasName name : String) :
    (columnOf aliasName name).collect g k = g.column k (some (.source aliasName)) name := by
  rw [columnOf, collect]

@[simp] theorem collect_inserted (name : String) :
    (inserted name).collect g k = g.column k (some .inserted) name := by
  rw [inserted, collect]

@[simp] theorem collect_eq (left right : Expr) :
    (eq left right).collect g k = left.collect g k ++ right.collect g k := by
  rw [eq, collect]

theorem collect_inList {items : List Expr} (h : items ≠ []) (item : Expr) (negated : Bool) :
    (inList item items negated).collect g k = item.collect g k ++ items.flatMap (collect g k) := by
  obtain ⟨first, rest, rfl⟩ := List.exists_cons_of_ne_nil h
  rw [collect, exprsCollect_eq, List.flatMap_cons]

/-- Where lists without items are nothing special, one is its item and what it is looked for in. -/
theorem collect_inList_of_keeps (h : ∀ xs, g.emptyList xs = xs) (item : Expr) (items : List Expr)
    (negated : Bool) :
    (inList item items negated).collect g k = item.collect g k ++ items.flatMap (collect g k) := by
  cases items with
  | nil => rw [collect, h, List.flatMap_nil, List.append_nil]
  | cons first rest => exact collect_inList (List.cons_ne_nil first rest) item negated

@[simp] theorem collect_tautology : tautology.collect g k = [] := by
  rw [tautology, eq, collect, collect, List.append_nil]

@[simp] theorem collect_contradiction : contradiction.collect g k = [] := by
  rw [contradiction, eq, collect, collect, collect, List.append_nil]

theorem flatMap_collect_conjuncts (e : Expr) : e.conjuncts.flatMap (collect g k) = e.collect g k := by
  cases e with
  | all operands => rw [conjuncts, collect, exprsCollect_eq]
  | _ => exact List.flatMap_singleton (collect g k) _

theorem flatMap_collect_disjuncts (e : Expr) : e.disjuncts.flatMap (collect g k) = e.collect g k := by
  cases e with
  | any operands => rw [disjuncts, collect, exprsCollect_eq]
  | _ => exact List.flatMap_singleton (collect g k) _

/-- What is taken from the parts is taken from the whole, one after the other. -/
theorem flatMap_collect_parts {parts : Expr → List Expr}
    (h : ∀ e, (parts e).flatMap (collect g k) = e.collect g k) (operands : List Expr) :
    (operands.flatMap parts).flatMap (collect g k) = operands.flatMap (collect g k) := by
  rw [List.flatMap_assoc]
  simp only [h]

theorem collect_allOf (operands : List Expr) :
    (allOf operands).collect g k = operands.flatMap (collect g k) := by
  rw [← flatMap_collect_parts flatMap_collect_conjuncts, allOf, allOf?]
  match operands.flatMap conjuncts with
  | [] => simp
  | [e] => simp
  | e :: f :: rest => rw [Option.getD_some, collect, exprsCollect_eq]

theorem collect_anyOf (operands : List Expr) :
    (anyOf operands).collect g k = operands.flatMap (collect g k) := by
  rw [← flatMap_collect_parts flatMap_collect_disjuncts, anyOf, anyOf?]
  match operands.flatMap disjuncts with
  | [] => simp
  | [e] => simp
  | e :: f :: rest => rw [Option.getD_some, collect, exprsCollect_eq]

theorem collect_of_allOf? {operands : List Expr} {e : Expr} (h : allOf? operands = some e) :
    e.collect g k = operands.flatMap (collect g k) := by
  rw [← collect_allOf, allOf, h, Option.getD_some]

theorem optionalCollect_allOf? (operands : List Expr) :
    optionalCollect g k (allOf? operands) = operands.flatMap (collect g k) := by
  rw [← collect_allOf, allOf]
  cases allOf? operands with
  | none => rw [Option.getD_none, collect_tautology, optionalCollect]
  | some e => rw [Option.getD_some, optionalCollect]

@[simp] theorem collect_and (left right : Expr) :
    (left.and right).collect g k = left.collect g k ++ right.collect g k := by
  simp [and, collect_allOf]

@[simp] theorem collect_or (left right : Expr) :
    (left.or right).collect g k = left.collect g k ++ right.collect g k := by
  simp [or, collect_anyOf]

theorem collect_allOf_map {α : Type} {f : α → Expr} (h : ∀ a, (f a).collect g k = [])
    (items : List α) : (allOf (items.map f)).collect g k = [] := by
  rw [collect_allOf, List.flatMap_map, List.flatMap_eq_nil_iff]
  exact fun a _ => h a

end Expr

/-- Nothing is in assignments of columns to columns. -/
theorem collect_columnAssignments [g.Plain] {α : Type} (column : α → String)
    (source : α → String × String) (items : List α) :
    (items.map fun a => Assignment.set (column a) (.columnOf (source a).1 (source a).2)).flatMap
      (Assignment.collect g k) = [] := by
  rw [List.flatMap_map, List.flatMap_eq_nil_iff]
  intro a _
  rw [Assignment.collect, Expr.collect_columnOf, Collector.Plain.column]

namespace Source

@[simp] theorem factors_of (base : Factor) : (Source.of base).factors = [base] := rfl

@[simp] theorem factors_join (s : Source) (kind : JoinKind) (factor : Factor) (on : Expr) :
    (s.join kind factor on).factors = s.factors ++ [factor] := by
  simp [join, factors]

/-- What is taken from the row sources of a FROM clause and their conditions. -/
def partsCollect (g : Collector κ β) (k : κ) (s : Source) : List β :=
  s.base.collect g k ++ joinsCollect g k [s.base] s.joins

theorem collect_eq (s : Source) :
    sourceCollect g k (some s) = g.clause s ++ s.partsCollect g k := by
  obtain ⟨base, joins⟩ := s
  rw [sourceCollect, partsCollect]

@[simp] theorem partsCollect_of (base : Factor) :
    (Source.of base).partsCollect g k = base.collect g k := List.append_nil _

/-- The condition of a join is read over the row sources before it and its own. -/
theorem partsCollect_join (s : Source) (kind : JoinKind) (factor : Factor) (on : Expr) :
    (s.join kind factor on).partsCollect g k = s.partsCollect g k ++
      (factor.collect g k ++ on.collect g (g.inside (s.factors ++ [factor]) k)) := by
  simp [join, partsCollect, factors, joinsCollect_append, joinsCollect]

@[simp] theorem collect_of [g.Plain] (base : Factor) :
    sourceCollect g k (some (Source.of base)) = base.collect g k := by
  rw [collect_eq, Collector.Plain.clause, partsCollect_of, List.nil_append]

theorem collect_join [g.Plain] (s : Source) (kind : JoinKind) (factor : Factor) (on : Expr) :
    sourceCollect g k (some (s.join kind factor on)) = sourceCollect g k (some s) ++
      (factor.collect g k ++ on.collect g (g.inside (s.factors ++ [factor]) k)) := by
  simp [collect_eq, partsCollect_join]

theorem mem_collect_join [g.Plain] (s : Source) (kind : JoinKind) (factor : Factor) (on : Expr) :
    x ∈ sourceCollect g k (some (s.join kind factor on)) ↔ x ∈ sourceCollect g k (some s) ∨
      x ∈ factor.collect g k ∨ x ∈ on.collect g (g.inside (s.factors ++ [factor]) k) := by
  rw [collect_join, List.mem_append, List.mem_append]

end Source

namespace Query

@[simp] theorem factors_restrict (q : Query) (condition : Expr) :
    (q.restrict condition).factors = q.factors := rfl

theorem collect_reading (source : Source) :
    (reading source).collect g k = g.ordering [] ++ sourceCollect g k (some source) := by
  simp [reading, collect, projectedCollect]

theorem mem_collect_project (q : Query) (e : Expr) (aliasName : Option String) :
    x ∈ (q.project e aliasName).collect g k ↔
      x ∈ q.collect g k ∨ x ∈ e.collect g (g.inside q.factors k) := by
  obtain ⟨distinct, projection, source, filter, groupBy, orderBy, offset, fetch⟩ := q
  simp only [project, factors, collect, projectedCollect_append, projectedCollect, List.append_nil,
    List.mem_append]
  tauto

theorem mem_collect_restrict (q : Query) (condition : Expr) :
    x ∈ (q.restrict condition).collect g k ↔
      x ∈ q.collect g k ∨ x ∈ condition.collect g (g.inside q.factors k) := by
  obtain ⟨distinct, projection, source, filter, groupBy, orderBy, offset, fetch⟩ := q
  cases filter with
  | none =>
    simp only [restrict, factors, collect, optionalCollect, List.mem_append, List.not_mem_nil]
    tauto
  | some filter =>
    simp only [restrict, factors, collect, optionalCollect, Expr.collect_and, List.mem_append]
    tauto

theorem mem_collect_restrictAll {α : Type} (condition : α → Expr) (conditions : List α) (q : Query) :
    x ∈ (conditions.foldl (fun q a => q.restrict (condition a)) q).collect g k ↔
      x ∈ q.collect g k ∨ ∃ a ∈ conditions, x ∈ (condition a).collect g (g.inside q.factors k) := by
  induction conditions generalizing q with
  | nil => simp
  | cons a conditions ih =>
    rw [List.foldl_cons, ih, mem_collect_restrict, factors_restrict, or_assoc]
    simp

/-- Projecting expressions with nothing in them adds nothing. -/
theorem mem_collect_projectAll {α : Type} {expr : α → Expr} (label : α → Option String)
    (h : ∀ k a, (expr a).collect g k = []) (items : List α) (q : Query) :
    x ∈ (items.foldl (fun q a => q.project (expr a) (label a)) q).collect g k ↔ x ∈ q.collect g k := by
  induction items generalizing q with
  | nil => rfl
  | cons a items ih =>
    rw [List.foldl_cons, ih, mem_collect_project, h]
    exact or_iff_left List.not_mem_nil

@[simp] theorem collect_distinct (q : Query) (distinct : Bool) :
    Query.collect g k { q with distinct } = q.collect g k := by
  obtain ⟨_, projection, source, filter, groupBy, orderBy, offset, fetch⟩ := q
  rfl

theorem mem_collect_of_orderBy {q : Query}
    (h : x ∈ orderItemsCollect g (g.inside q.factors k) q.orderBy) : x ∈ q.collect g k := by
  obtain ⟨distinct, projection, source, filter, groupBy, orderBy, offset, fetch⟩ := q
  simp only [factors, collect, List.mem_append] at h ⊢
  tauto

/-- Ordering and paging a query adds the new ordering and what it has. -/
theorem mem_collect_page (q : Query) (order : List OrderItem) (offset fetch : Option Expr)
    (h : x ∈ Query.collect g k { q with orderBy := order, offset, fetch }) :
    x ∈ g.ordering order ∨ x ∈ q.collect g k ∨
      x ∈ orderItemsCollect g (g.inside q.factors k) order ∨
        x ∈ optionalCollect g (g.inside q.factors k) offset ∨
          x ∈ optionalCollect g (g.inside q.factors k) fetch := by
  obtain ⟨distinct, projection, source, filter, groupBy, orderBy, _, _⟩ := q
  simp only [factors, collect, List.mem_append] at h ⊢
  tauto

/-- Replacing the ordering of a query adds the new one and what it has. -/
theorem mem_collect_ordered (q : Query) (order : List OrderItem)
    (h : x ∈ Query.collect g k { q with orderBy := order }) :
    x ∈ g.ordering order ∨ x ∈ q.collect g k ∨
      x ∈ orderItemsCollect g (g.inside q.factors k) order := by
  obtain ⟨distinct, projection, source, filter, groupBy, orderBy, offset, fetch⟩ := q
  simp only [factors, collect, List.mem_append] at h ⊢
  tauto

end Query

end Laws

end ShapeSql.Sql
