import Mathlib.Data.List.Sort
import ShapeSql.Proofs.Sql.Filled
import ShapeSql.Value.Basic

/-!
What queries mean to a database. A FROM clause makes tuples, one row of each row source; the tuples for
which the condition holds are sorted, projected and cut to the page. A comparison with a null is neither
true nor false, and only what is true is kept. Grouping is left out, for no statement groups.
-/

namespace ShapeSql

/-- The number that a value stands for as an offset or a fetch. -/
def Value.count? : Value → Option Nat
  | .i32 n => if 0 ≤ n.toInt then some n.toInt.toNat else none
  | .i64 n => if 0 ≤ n.toInt then some n.toInt.toNat else none
  | _ => none

namespace Sql

/-- The truth of a condition, unknown where a null is compared. -/
inductive Truth where
  | yes | no | unknown
  deriving DecidableEq, Repr

namespace Truth

def ofBool (b : Bool) : Truth := if b then .yes else .no

def not : Truth → Truth
  | .yes => .no
  | .no => .yes
  | .unknown => .unknown

def and : Truth → Truth → Truth
  | .yes, t => t
  | .no, _ => .no
  | .unknown, .no => .no
  | .unknown, _ => .unknown

def or : Truth → Truth → Truth
  | .yes, _ => .yes
  | .no, t => t
  | .unknown, .yes => .yes
  | .unknown, _ => .unknown

/-- Only what is true is kept. -/
def holds : Truth → Bool
  | .yes => true
  | .no | .unknown => false

end Truth

/-- Cells under the names of their columns. -/
abbrev Row := Record

/-- The cell of a column. The row that a left join adds has none, so all of them are null. -/
def Row.cell (row : Row) (name : String) : Value := (Record.getExact? row name).getD .null

/-- A row of each row source of a FROM clause, under its alias. -/
abbrev Tuple := List (String × Row)

def Tuple.row? (t : Tuple) (aliasName : String) : Option Row :=
  (t.find? fun entry => sameName entry.1 aliasName).map Prod.snd

/-- The tuples in scope, that of the innermost query first. -/
abbrev Env := List Tuple

/-- The cell of a column read through an alias of the nearest query that has it. -/
def Env.cell : Env → String → String → Value
  | [], _, _ => .null
  | t :: outer, aliasName, name =>
    match t.row? aliasName with
    | some row => row.cell name
    | none => Env.cell outer aliasName name

/-- How a database compares values that are not null, and how it sorts. -/
structure Dialect where
  compare : CompareOp → Value → Value → Bool
  like : Value → Value → Bool
  /-- Whether the first value is sorted before the second one, nulls included. -/
  before : Value → Value → Bool
  equal : Equivalence fun a b => compare .eq a b = true

/-- The order of sorting, the first values that sort differently deciding. -/
def Dialect.precedes (d : Dialect) : List (Value × Direction) → List (Value × Direction) → Bool
  | (a, direction) :: as, (b, _) :: bs =>
    let (first, second) := match direction with
      | .asc => (a, b)
      | .desc => (b, a)
    if d.before first second then true
    else if d.before second first then false
    else d.precedes as bs
  | _, _ => true

/-- The rows of tables and of table variables, by their names. -/
structure Database where
  tables : String → List Row
  tableVars : String → List Row

/-- What a statement is read in. -/
structure World where
  dialect : Dialect
  database : Database
  params : Record

namespace World

/-- A comparison, unknown if either side is null. -/
def compare (w : World) (op : CompareOp) (a b : Value) : Truth :=
  if a.isNull || b.isNull then .unknown else .ofBool (w.dialect.compare op a b)

def like (w : World) (a pattern : Value) : Truth :=
  if a.isNull || pattern.isNull then .unknown else .ofBool (w.dialect.like a pattern)

/-- Membership: one of the comparisons with the items is true. -/
def member (w : World) (a : Value) (items : List Value) : Truth :=
  items.foldr (fun item t => (w.compare .eq a item).or t) .no

/-- Cells that a result without repetitions does not tell apart. -/
def sameCell (w : World) (a b : Value) : Bool :=
  if a.isNull || b.isNull then a.isNull && b.isNull else w.dialect.compare .eq a b

def sameRow (w : World) (a b : Row) : Bool :=
  a.length == b.length && (a.zip b).all fun pair => w.sameCell pair.1.2 pair.2.2

end World

/-- The value of an expression that is no condition. -/
def Expr.value (w : World) (env : Env) : Expr → Value
  | .column (some (.source aliasName)) name => env.cell aliasName name
  | .group inner => inner.value w env
  | .int value => .i64 value
  | .text value => .text value
  | .param name => (Record.getExact? w.params name).getD .null
  | _ => .null

/-- A projected value, under its own name or that of its column. -/
def Projected.cell (w : World) (env : Env) (p : Projected) : String × Value :=
  (p.aliasName.getD (match p.expr with
    | .column _ name => name
    | _ => ""), p.expr.value w env)

def Expr.isCount : Expr → Bool
  | .countAll => true
  | _ => false

/-- The values that a tuple is sorted by. -/
def sortKey (w : World) (env : Env) (items : List OrderItem) : List (Value × Direction) :=
  items.filterMap fun
    | .term term => some (term.expr.value w env, term.direction.getD .asc)
    | .hole _ => none

/-- The number that a bound of a page stands for; it is read outside of all tuples. -/
def pageCount? (w : World) (bound : Option Expr) : Option Nat :=
  bound.bind fun e => (e.value w []).count?

/-- The rows of a page. -/
def pageRows {α : Type} (w : World) (offset fetch : Option Expr) (rows : List α) : List α :=
  let skipped := rows.drop ((pageCount? w offset).getD 0)
  match pageCount? w fetch with
  | some count => skipped.take count
  | none => skipped

/-- What a select list makes of tuples: a row of each, or the number of them. -/
def projectRows (w : World) (outer : Env) (distinct : Bool) (projection : List Projected)
    (tuples : List Tuple) : List Row :=
  if projection.any fun p => p.expr.isCount then
    [projection.map fun p => (p.aliasName.getD "", .i64 (Int64.ofNat tuples.length))]
  else
    let rows := tuples.map fun t => projection.map (Projected.cell w (t :: outer))
    if distinct then rows.eraseDupsBy w.sameRow else rows

/-- The matches of a join; a left join without any has the row of nulls. -/
def JoinKind.padded : JoinKind → Tuple → List Tuple → List Tuple
  | .left, blank, [] => [blank]
  | _, _, found => found

mutual

@[simp] def Expr.truth (w : World) (env : Env) : Expr → Truth
  | .all operands => allTruth w env operands
  | .any operands => anyTruth w env operands
  | .compare left op right => w.compare op (left.value w env) (right.value w env)
  | .exists query negated => .ofBool ((query.rows w env).isEmpty == negated)
  | .group inner => inner.truth w env
  | .inList item items negated =>
    let found := w.member (item.value w env) (items.map (Expr.value w env))
    if negated then found.not else found
  | .isNull item negated => .ofBool ((item.value w env).isNull != negated)
  | .like item pattern negated =>
    let found := w.like (item.value w env) (pattern.value w env)
    if negated then found.not else found
  | .column _ _ | .countAll | .hole _ | .int _ | .text _ | .null | .param _ => .unknown

def allTruth (w : World) (env : Env) : List Expr → Truth
  | [] => .yes
  | e :: es => (e.truth w env).and (allTruth w env es)

def anyTruth (w : World) (env : Env) : List Expr → Truth
  | [] => .no
  | e :: es => (e.truth w env).or (anyTruth w env es)

def optionalTruth (w : World) (env : Env) : Option Expr → Truth
  | none => .yes
  | some e => e.truth w env

/-- The rows of a query within the tuples of the queries around it. -/
def Query.rows (w : World) (outer : Env) : Query → List Row
  | ⟨distinct, projection, source, filter, _, orderBy, offset, fetch⟩ =>
    let kept := (sourceTuples w outer source).filter fun t =>
      (optionalTruth w (t :: outer) filter).holds
    let sorted := kept.insertionSort fun t u =>
      w.dialect.precedes (sortKey w (t :: outer) orderBy) (sortKey w (u :: outer) orderBy)
    pageRows w offset fetch (projectRows w outer distinct projection sorted)

def sourceTuples (w : World) (outer : Env) : Option Source → List Tuple
  | none => [[]]
  | some ⟨base, joins⟩ =>
    (base.rows w outer).flatMap fun row => joinsTuples w outer joins [(base.reference, row)]

/-- All that a tuple is joined to. -/
def joinsTuples (w : World) (outer : Env) : List Join → Tuple → List Tuple
  | [], t => [t]
  | ⟨kind, factor, condition⟩ :: rest, t =>
    let found := ((factor.rows w outer).map fun row => t ++ [(factor.reference, row)]).filter
      fun joined => (condition.truth w (joined :: outer)).holds
    (kind.padded (t ++ [(factor.reference, [])]) found).flatMap fun joined =>
      joinsTuples w outer rest joined

def Factor.rows (w : World) (outer : Env) : Factor → List Row
  | .table name _ => w.database.tables name
  | .tableVar name _ => w.database.tableVars name
  | .derived query _ => query.rows w outer

end

/-- The condition is true. -/
def Expr.holds (w : World) (env : Env) (e : Expr) : Bool := (e.truth w env).holds

/-- The tuple is kept. -/
def Query.passes (w : World) (outer : Env) (q : Query) (t : Tuple) : Bool :=
  (optionalTruth w (t :: outer) q.filter).holds

theorem Truth.holds_and (a b : Truth) : (a.and b).holds = (a.holds && b.holds) := by
  cases a <;> cases b <;> rfl

@[simp] theorem Truth.holds_ofBool (b : Bool) : (Truth.ofBool b).holds = b := by
  cases b <;> rfl

section Holds

variable {w : World} {env outer : Env} {f : HoleFiller}

theorem holds_allTruth (es : List Expr) :
    (allTruth w env es).holds = es.all (Expr.holds w env) := by
  induction es with
  | nil => rw [allTruth, List.all_nil, Truth.holds]
  | cons e es ih => rw [allTruth, Truth.holds_and, ih, List.all_cons, Expr.holds]

namespace Expr

theorem holds_all (operands : List Expr) :
    (Expr.all operands).holds w env = operands.all (holds w env) := by
  rw [holds, truth, holds_allTruth]

theorem holds_tautology : tautology.holds w env = true := by
  have hone : w.dialect.compare .eq (.i64 1) (.i64 1) = true := w.dialect.equal.refl _
  simp [tautology, eq, holds, truth, value, World.compare, Value.isNull, hone]

@[simp] theorem filled_tautology : tautology.filled f = tautology := by
  rw [tautology, eq, filled, filled]

theorem holds_conjuncts (e : Expr) :
    (e.conjuncts.all fun part => (part.filled f).holds w env) = (e.filled f).holds w env := by
  cases e with
  | all operands =>
    rw [conjuncts, filled, holds_all, exprsFilled_eq, List.all_map]
    rfl
  | _ => simp [conjuncts]

/-- A conjunction is true when all of its operands are. -/
theorem holds_allOf (operands : List Expr) :
    ((allOf operands).filled f).holds w env =
      operands.all fun e => (e.filled f).holds w env := by
  have hflat : ((operands.flatMap conjuncts).all fun e => (e.filled f).holds w env) =
      operands.all fun e => (e.filled f).holds w env := by
    rw [List.all_flatMap]
    simp only [holds_conjuncts]
  rw [← hflat, allOf, allOf?]
  match operands.flatMap conjuncts with
  | [] =>
    rw [Option.getD_none, filled_tautology, holds_tautology, List.all_nil]
  | [e] => simp
  | e :: e' :: rest =>
    rw [Option.getD_some, filled, holds_all, exprsFilled_eq, List.all_map]
    rfl

theorem holds_and (left right : Expr) : ((left.and right).filled f).holds w env =
    ((left.filled f).holds w env && (right.filled f).holds w env) := by
  rw [Expr.and, holds_allOf, List.all_cons, List.all_cons, List.all_nil, Bool.and_true]

end Expr

namespace Query

/-- A restricted query keeps what it kept before, where the new condition is true. -/
theorem passes_restrict (q : Query) (e : Expr) (t : Tuple) :
    ((q.restrict e).filled f).passes w outer t =
      ((q.filled f).passes w outer t && (e.filled f).holds w (t :: outer)) := by
  obtain ⟨distinct, projection, source, filter, groupBy, orderBy, offset, fetch⟩ := q
  cases filter with
  | none =>
    simp only [passes, restrict, filled, optionalFilled, optionalTruth, Truth.holds, Bool.true_and]
    rfl
  | some filter =>
    simp only [passes, restrict, filled, optionalFilled, optionalTruth]
    exact Expr.holds_and filter e

/-- What is kept after several restrictions. -/
theorem passes_foldl {α : Type} (condition : α → Expr) (items : List α) (q : Query) (t : Tuple) :
    ((items.foldl (fun q a => q.restrict (condition a)) q).filled f).passes w outer t =
      ((q.filled f).passes w outer t &&
        items.all fun a => ((condition a).filled f).holds w (t :: outer)) := by
  induction items generalizing q with
  | nil => rw [List.foldl_nil, List.all_nil, Bool.and_true]
  | cons a items ih =>
    rw [List.foldl_cons, ih, passes_restrict, List.all_cons, Bool.and_assoc]

/-- The tuples of a query that are kept. -/
def kept (w : World) (outer : Env) (q : Query) : List Tuple :=
  (sourceTuples w outer q.source).filter (q.passes w outer)

/-- A query that skips nothing and fetches all that it keeps has a row of each tuple, in some order. -/
theorem rows_perm (w : World) (outer : Env) (q : Query) (hdistinct : q.distinct = false)
    (hcount : (q.projection.any fun p => p.expr.isCount) = false)
    (hoffset : (pageCount? w q.offset).getD 0 = 0)
    (hfetch : ∀ n, pageCount? w q.fetch = some n → (q.kept w outer).length ≤ n) :
    (q.rows w outer).Perm
      ((q.kept w outer).map fun t => q.projection.map (Projected.cell w (t :: outer))) := by
  obtain ⟨distinct, projection, source, filter, groupBy, orderBy, offset, fetch⟩ := q
  simp only at hdistinct hcount hoffset hfetch
  have hsorted := List.perm_insertionSort (fun t u : Tuple =>
    w.dialect.precedes (sortKey w (t :: outer) orderBy) (sortKey w (u :: outer) orderBy) = true)
    ((sourceTuples w outer source).filter fun t => (optionalTruth w (t :: outer) filter).holds)
  rw [rows]
  simp only [projectRows, hcount, hdistinct, Bool.false_eq_true, if_false, pageRows, hoffset,
    List.drop_zero]
  split
  · rename_i n hn
    rw [List.take_of_length_le]
    · exact hsorted.map _
    · rw [List.length_map, hsorted.length_eq]
      exact hfetch n hn
  · exact hsorted.map _

/-- A query without paging or repetitions has rows when a tuple passes. -/
theorem rows_isEmpty {q : Query} (hdistinct : q.distinct = false)
    (hcount : (q.projection.any fun p => p.expr.isCount) = false) (hoffset : q.offset = none)
    (hfetch : q.fetch = none) :
    (q.rows w outer).isEmpty = !(sourceTuples w outer q.source).any (q.passes w outer) := by
  have hperm := q.rows_perm w outer hdistinct hcount
    (by rw [hoffset]; rfl) (by rw [hfetch]; exact fun _ h => nomatch h)
  have hkept : (q.rows w outer).isEmpty = (q.kept w outer).isEmpty := by
    rw [Bool.eq_iff_iff, List.isEmpty_iff_length_eq_zero, List.isEmpty_iff_length_eq_zero,
      hperm.length_eq, List.length_map]
  rw [hkept, kept, Bool.eq_iff_iff, List.isEmpty_iff, List.filter_eq_nil_iff, Bool.not_eq_true',
    List.any_eq_false]

end Query

/-- `EXISTS` asks for a tuple that passes. -/
theorem Expr.holds_exists {q : Query} (negated : Bool) (hdistinct : q.distinct = false)
    (hcount : (q.projection.any fun p => p.expr.isCount) = false) (hoffset : q.offset = none)
    (hfetch : q.fetch = none) : (Expr.exists q negated).holds w outer =
      ((sourceTuples w outer q.source).any (q.passes w outer) != negated) := by
  rw [holds, truth, Truth.holds_ofBool, Query.rows_isEmpty hdistinct hcount hoffset hfetch]
  cases (sourceTuples w outer q.source).any (q.passes w outer) <;> cases negated <;> rfl

end Holds

end Sql

end ShapeSql
