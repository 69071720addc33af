import ShapeSql.Proofs.Except
import ShapeSql.Sql.Render

namespace ShapeSql.Sql

/-- What stands in the holes of each place. -/
structure HoleFiller where
  expr : HoleId → Expr
  order : HoleId → List OrderItem
  assignments : HoleId → List Assignment
  rows : HoleId → InsertSource

mutual

def Expr.filled (f : HoleFiller) : Expr → Expr
  | .all operands => .all (exprsFilled f operands)
  | .any operands => .any (exprsFilled f operands)
  | .compare left op right => .compare (left.filled f) op (right.filled f)
  | .column qualifier name => .column qualifier name
  | .countAll => .countAll
  | .exists query negated => .exists (query.filled f) negated
  | .group inner => .group (inner.filled f)
  | .hole id => f.expr id
  | .inList item items negated => .inList (item.filled f) (exprsFilled f items) negated
  | .isNull item negated => .isNull (item.filled f) negated
  | .like item pattern negated => .like (item.filled f) (pattern.filled f) negated
  | .int value => .int value
  | .text value => .text value
  | .null => .null
  | .param name => .param name

def exprsFilled (f : HoleFiller) : List Expr → List Expr
  | [] => []
  | e :: es => e.filled f :: exprsFilled f es

def optionalFilled (f : HoleFiller) : Option Expr → Option Expr
  | none => none
  | some e => some (e.filled f)

def Query.filled (f : HoleFiller) : Query → Query
  | ⟨distinct, projection, source, filter, groupBy, orderBy, offset, fetch⟩ =>
    ⟨distinct, projectedFilled f projection, sourceFilled f source, optionalFilled f filter,
      exprsFilled f groupBy, orderItemsFilled f orderBy, optionalFilled f offset,
      optionalFilled f fetch⟩

def projectedFilled (f : HoleFiller) : List Projected → List Projected
  | [] => []
  | ⟨expr, aliasName⟩ :: rest => ⟨expr.filled f, aliasName⟩ :: projectedFilled f rest

def sourceFilled (f : HoleFiller) : Option Source → Option Source
  | none => none
  | some ⟨base, joins⟩ => some ⟨base.filled f, joinsFilled f joins⟩

def joinsFilled (f : HoleFiller) : List Join → List Join
  | [] => []
  | ⟨kind, factor, condition⟩ :: rest =>
    ⟨kind, factor.filled f, condition.filled f⟩ :: joinsFilled f rest

def Factor.filled (f : HoleFiller) : Factor → Factor
  | .table name aliasName => .table name aliasName
  | .tableVar name aliasName => .tableVar name aliasName
  | .derived query aliasName => .derived (query.filled f) aliasName

def orderItemsFilled (f : HoleFiller) : List OrderItem → List OrderItem
  | [] => []
  | .term ⟨expr, direction⟩ :: rest => .term ⟨expr.filled f, direction⟩ :: orderItemsFilled f rest
  | .hole id :: rest => f.order id ++ orderItemsFilled f rest

end

def assignmentsFilled (f : HoleFiller) : List Assignment → List Assignment
  | [] => []
  | .set column value :: rest => .set column (value.filled f) :: assignmentsFilled f rest
  | .hole id :: rest => f.assignments id ++ assignmentsFilled f rest

def OrderTerm.filled (f : HoleFiller) (t : OrderTerm) : OrderTerm :=
  { t with expr := t.expr.filled f }

namespace HoleFiller

/-- Leaves all holes open. -/
def keeping : HoleFiller where
  expr := .hole
  order id := [.hole id]
  assignments id := [.hole id]
  rows := .hole

/-- Puts in what a hole is bound to, holes within it filled by `inner`. -/
def filling (subs : Substitution) (inner : HoleFiller) : HoleFiller where
  expr id := match subs.find? id with
    | some (.expr e) => e.filled inner
    | _ => .hole id
  order id := match subs.find? id with
    | some (.order terms) => terms.map fun t => .term (t.filled inner)
    | _ => [.hole id]
  assignments id := match subs.find? id with
    | some (.assignments list) => assignmentsFilled inner list
    | _ => [.hole id]
  rows id := match subs.find? id with
    | some (Fragment.rows data) => .rows (data.map (exprsFilled inner))
    | _ => .hole id

/-- Fills fragments nested up to `depth` deep. -/
def nested (subs : Substitution) : Nat → HoleFiller
  | 0 => filling subs keeping
  | depth + 1 => filling subs (nested subs depth)

/-- Fills as the printer of the substitution writes. -/
def ofSubstitution (subs : Substitution) : HoleFiller := nested subs subs.size

end HoleFiller

def InsertSource.filled (f : HoleFiller) : InsertSource → InsertSource
  | .rows data => .rows (data.map (exprsFilled f))
  | .hole id => f.rows id
  | .query q => .query (q.filled f)

def Merge.filled (f : HoleFiller) (m : Merge) : Merge where
  target := m.target.filled f
  source := m.source.filled f
  condition := m.condition.filled f
  matchedUpdate := assignmentsFilled f m.matchedUpdate
  notMatchedInsert := m.notMatchedInsert.map fun i => { i with values := exprsFilled f i.values }
  output := m.output.map fun o => { o with exprs := exprsFilled f o.exprs }

def Update.filled (f : HoleFiller) (u : Update) : Update where
  target := u.target
  assignments := assignmentsFilled f u.assignments
  source := sourceFilled f u.source
  filter := optionalFilled f u.filter

def Statement.filled (f : HoleFiller) : Statement → Statement
  | .declare name columns => .declare name columns
  | .delete source filter => .delete (source.filled f) (optionalFilled f filter)
  | .insert target columns source => .insert target columns (source.filled f)
  | .merge m => .merge (m.filled f)
  | .query q => .query (q.filled f)
  | .update u => .update (u.filled f)

theorem exprsFilled_eq (f : HoleFiller) (es : List Expr) :
    exprsFilled f es = es.map (Expr.filled f) := by
  induction es with
  | nil => rfl
  | cons e es ih => rw [exprsFilled, ih, List.map_cons]

theorem map_factor_joinsFilled (f : HoleFiller) (joins : List Join) :
    (joinsFilled f joins).map Join.factor = (joins.map Join.factor).map (Factor.filled f) := by
  induction joins with
  | nil => rfl
  | cons j joins ih =>
    obtain ⟨kind, factor, condition⟩ := j
    rw [joinsFilled, List.map_cons, ih, List.map_cons, List.map_cons]

/-- The batch with what its holes are bound to in their place. -/
def Batch.filled (batch : Batch) (subs : Substitution) : Batch :=
  batch.map (Statement.filled (.ofSubstitution subs))

/-- What `f` puts into a hole is written out by `closed` as the hole is by `holes`. -/
structure HoleFiller.Follows (f : HoleFiller) (holes closed : HolePrinter) : Prop where
  expr : ∀ id w, holes.expr id = .ok w → (f.expr id).written closed = .ok w
  order : ∀ id w, holes.order id = .ok w → orderItemsWritten closed (f.order id) = .ok w
  assignments : ∀ id w, holes.assignments id = .ok w →
    assignmentsWritten closed (f.assignments id) = .ok w
  rows : ∀ id w, holes.rows id = .ok w →
    ∃ rows, f.rows id = .rows rows ∧ rowsWritten closed rows = .ok w

section Written

variable {f : HoleFiller} {holes closed : HolePrinter}

theorem orderItemsWritten_append {xs ys : List OrderItem} {v w : List (List Lexeme)}
    (hxs : orderItemsWritten closed xs = .ok v) (hys : orderItemsWritten closed ys = .ok w) :
    orderItemsWritten closed (xs ++ ys) = .ok (v ++ w) := by
  induction xs generalizing v with
  | nil =>
    cases hxs
    exact hys
  | cons x xs ih =>
    cases x with
    | term t =>
      obtain ⟨expr, direction⟩ := t
      simp only [orderItemsWritten, except_bind_ok] at hxs
      obtain ⟨e, he, others, hothers, hpure⟩ := hxs
      cases hpure
      simp only [List.cons_append, orderItemsWritten, he, ih hothers]
      rfl
    | hole id =>
      simp only [orderItemsWritten, except_bind_ok] at hxs
      obtain ⟨terms, hterms, others, hothers, hpure⟩ := hxs
      cases hpure
      simp only [List.cons_append, orderItemsWritten, hterms, ih hothers, List.append_assoc]
      rfl

theorem assignmentsWritten_append {xs ys : List Assignment} {v w : List (List Lexeme)}
    (hxs : assignmentsWritten closed xs = .ok v) (hys : assignmentsWritten closed ys = .ok w) :
    assignmentsWritten closed (xs ++ ys) = .ok (v ++ w) := by
  induction xs generalizing v with
  | nil =>
    cases hxs
    exact hys
  | cons x xs ih =>
    cases x with
    | set column value =>
      simp only [assignmentsWritten, except_bind_ok] at hxs
      obtain ⟨first, hfirst, others, hothers, hpure⟩ := hxs
      cases hpure
      simp only [List.cons_append, assignmentsWritten, hfirst, ih hothers]
      rfl
    | hole id =>
      simp only [assignmentsWritten, except_bind_ok] at hxs
      obtain ⟨bound, hbound, others, hothers, hpure⟩ := hxs
      cases hpure
      simp only [List.cons_append, assignmentsWritten, hbound, ih hothers, List.append_assoc]
      rfl

mutual

theorem Expr.written_filled (h : f.Follows holes closed) :
    ∀ (e : Expr) {w : List Lexeme}, e.written holes = .ok w → (e.filled f).written closed = .ok w
  | .all operands, w, hw | .any operands, w, hw => by
    simp only [Expr.written, except_bind_ok] at hw
    obtain ⟨items, hitems, hpure⟩ := hw
    cases hpure
    simp only [Expr.filled, Expr.written, exprsWritten_filled h operands hitems]
    rfl
  | .compare left op right, w, hw => by
    simp only [Expr.written, except_bind_ok] at hw
    obtain ⟨l, hl, r, hr, hpure⟩ := hw
    cases hpure
    simp only [Expr.filled, Expr.written, left.written_filled h hl, right.written_filled h hr]
    rfl
  | .column qualifier name, w, hw => hw
  | .countAll, w, hw => hw
  | .exists query negated, w, hw => by
    simp only [Expr.written, except_bind_ok] at hw
    obtain ⟨q, hq, hpure⟩ := hw
    cases hpure
    simp only [Expr.filled, Expr.written, query.written_filled h hq]
    rfl
  | .group inner, w, hw => by
    simp only [Expr.written, except_bind_ok] at hw
    obtain ⟨e, he, hpure⟩ := hw
    cases hpure
    simp only [Expr.filled, Expr.written, inner.written_filled h he]
    rfl
  | .hole id, w, hw => h.expr id w hw
  | .inList item [] negated, w, hw => nomatch hw
  | .inList item (first :: rest) negated, w, hw => by
    simp only [Expr.written, except_bind_ok] at hw
    obtain ⟨e, he, head, hhead, tail, htail, hpure⟩ := hw
    cases hpure
    simp only [Expr.filled, exprsFilled, Expr.written, item.written_filled h he,
      first.written_filled h hhead, exprsWritten_filled h rest htail]
    rfl
  | .isNull item negated, w, hw => by
    simp only [Expr.written, except_bind_ok] at hw
    obtain ⟨e, he, hpure⟩ := hw
    cases hpure
    simp only [Expr.filled, Expr.written, item.written_filled h he]
    rfl
  | .like item pattern negated, w, hw => by
    simp only [Expr.written, except_bind_ok] at hw
    obtain ⟨e, he, p, hp, hpure⟩ := hw
    cases hpure
    simp only [Expr.filled, Expr.written, item.written_filled h he, pattern.written_filled h hp]
    rfl
  | .int value, w, hw => hw
  | .text value, w, hw => hw
  | .null, w, hw => hw
  | .param name, w, hw => hw

theorem exprsWritten_filled (h : f.Follows holes closed) :
    ∀ (es : List Expr) {w : List (List Lexeme)}, exprsWritten holes es = .ok w →
      exprsWritten closed (exprsFilled f es) = .ok w
  | [], w, hw => hw
  | e :: es, w, hw => by
    simp only [exprsWritten, except_bind_ok] at hw
    obtain ⟨first, hfirst, rest, hrest, hpure⟩ := hw
    cases hpure
    simp only [exprsFilled, exprsWritten, e.written_filled h hfirst, exprsWritten_filled h es hrest]
    rfl

theorem optionalWritten_filled (h : f.Follows holes closed) :
    ∀ (e : Option Expr) {w : Option (List Lexeme)}, optionalWritten holes e = .ok w →
      optionalWritten closed (optionalFilled f e) = .ok w
  | none, w, hw => hw
  | some e, w, hw => by
    simp only [optionalWritten, except_bind_ok] at hw
    obtain ⟨written, hwritten, hpure⟩ := hw
    cases hpure
    simp only [optionalFilled, optionalWritten, e.written_filled h hwritten]
    rfl

theorem Query.written_filled (h : f.Follows holes closed) :
    ∀ (q : Query) {w : List Lexeme}, q.written holes = .ok w → (q.filled f).written closed = .ok w
  | ⟨distinct, projection, source, filter, groupBy, orderBy, offset, fetch⟩, w, hw => by
    simp only [Query.written, except_bind_ok] at hw
    obtain ⟨items, hitems, from', hfrom, where', hwhere, groups, hgroups, terms, hterms, skip, hskip,
      take, htake, hpure⟩ := hw
    cases hpure
    simp only [Query.filled, Query.written, projectedWritten_filled h projection hitems,
      sourceWritten_filled h source hfrom, optionalWritten_filled h filter hwhere,
      exprsWritten_filled h groupBy hgroups, orderItemsWritten_filled h orderBy hterms,
      optionalWritten_filled h offset hskip, optionalWritten_filled h fetch htake]
    rfl

theorem projectedWritten_filled (h : f.Follows holes closed) :
    ∀ (ps : List Projected) {w : List (List Lexeme)}, projectedWritten holes ps = .ok w →
      projectedWritten closed (projectedFilled f ps) = .ok w
  | [], w, hw => hw
  | ⟨expr, aliasName⟩ :: rest, w, hw => by
    simp only [projectedWritten, except_bind_ok] at hw
    obtain ⟨e, he, others, hothers, hpure⟩ := hw
    cases hpure
    simp only [projectedFilled, projectedWritten, expr.written_filled h he,
      projectedWritten_filled h rest hothers]
    rfl

theorem sourceWritten_filled (h : f.Follows holes closed) :
    ∀ (s : Option Source) {w : Option (List Lexeme)}, sourceWritten holes s = .ok w →
      sourceWritten closed (sourceFilled f s) = .ok w
  | none, w, hw => hw
  | some ⟨base, joins⟩, w, hw => by
    simp only [sourceWritten, except_bind_ok] at hw
    obtain ⟨b, hb, js, hjs, hpure⟩ := hw
    cases hpure
    simp only [sourceFilled, sourceWritten, base.written_filled h hb,
      joinsWritten_filled h joins hjs]
    rfl

theorem joinsWritten_filled (h : f.Follows holes closed) :
    ∀ (js : List Join) {w : List Lexeme}, joinsWritten holes js = .ok w →
      joinsWritten closed (joinsFilled f js) = .ok w
  | [], w, hw => hw
  | ⟨kind, factor, condition⟩ :: rest, w, hw => by
    simp only [joinsWritten, except_bind_ok] at hw
    obtain ⟨from', hfrom, on, hon, others, hothers, hpure⟩ := hw
    cases hpure
    simp only [joinsFilled, joinsWritten, factor.written_filled h hfrom,
      condition.written_filled h hon, joinsWritten_filled h rest hothers]
    rfl

theorem Factor.written_filled (h : f.Follows holes closed) :
    ∀ (s : Factor) {w : List Lexeme}, s.written holes = .ok w → (s.filled f).written closed = .ok w
  | .table name aliasName, w, hw => hw
  | .tableVar name aliasName, w, hw => hw
  | .derived query aliasName, w, hw => by
    simp only [Factor.written, except_bind_ok] at hw
    obtain ⟨q, hq, hpure⟩ := hw
    cases hpure
    simp only [Factor.filled, Factor.written, query.written_filled h hq]
    rfl

theorem orderItemsWritten_filled (h : f.Follows holes closed) :
    ∀ (items : List OrderItem) {w : List (List Lexeme)}, orderItemsWritten holes items = .ok w →
      orderItemsWritten closed (orderItemsFilled f items) = .ok w
  | [], w, hw => hw
  | .term ⟨expr, direction⟩ :: rest, w, hw => by
    simp only [orderItemsWritten, except_bind_ok] at hw
    obtain ⟨e, he, others, hothers, hpure⟩ := hw
    cases hpure
    simp only [orderItemsFilled, orderItemsWritten, expr.written_filled h he,
      orderItemsWritten_filled h rest hothers]
    rfl
  | .hole id :: rest, w, hw => by
    simp only [orderItemsWritten, except_bind_ok] at hw
    obtain ⟨terms, hterms, others, hothers, hpure⟩ := hw
    cases hpure
    rw [orderItemsFilled]
    exact orderItemsWritten_append (h.order id terms hterms)
      (orderItemsWritten_filled h rest hothers)

end

theorem orderTermsWritten_filled (h : f.Follows holes closed) {terms : List OrderTerm}
    {w : List (List Lexeme)} (hw : orderTermsWritten holes terms = .ok w) :
    orderItemsWritten closed (terms.map fun t => .term (t.filled f)) = .ok w := by
  induction terms generalizing w with
  | nil => exact hw
  | cons t terms ih =>
    obtain ⟨expr, direction⟩ := t
    rw [orderTermsWritten, List.mapM_cons] at hw
    obtain ⟨first, hfirst, hw⟩ := except_bind_ok.mp hw
    obtain ⟨others, hothers, hpure⟩ := except_bind_ok.mp hw
    obtain ⟨e, he, hterm⟩ := except_bind_ok.mp hfirst
    cases hpure
    cases hterm
    rw [List.map_cons, OrderTerm.filled, orderItemsWritten, expr.written_filled h he, ih hothers]
    rfl

/-- No hole stands among bound assignments that can be written. -/
theorem boundWritten_filled (h : f.Follows holes closed) {list : List Assignment}
    {w : List (List Lexeme)} (hw : list.mapM (assignmentWritten holes) = .ok w) :
    assignmentsWritten closed (assignmentsFilled f list) = .ok w := by
  induction list generalizing w with
  | nil => exact hw
  | cons a list ih =>
    rw [List.mapM_cons] at hw
    obtain ⟨first, hfirst, hw⟩ := except_bind_ok.mp hw
    obtain ⟨others, hothers, hpure⟩ := except_bind_ok.mp hw
    cases hpure
    cases a with
    | set column value =>
      obtain ⟨v, hv, hset⟩ := except_bind_ok.mp hfirst
      cases hset
      simp only [assignmentsFilled, assignmentsWritten, assignmentWritten,
        value.written_filled h hv, ih hothers]
      rfl
    | hole id => cases hfirst

theorem assignmentsWritten_filled (h : f.Follows holes closed) {list : List Assignment}
    {w : List (List Lexeme)} (hw : assignmentsWritten holes list = .ok w) :
    assignmentsWritten closed (assignmentsFilled f list) = .ok w := by
  induction list generalizing w with
  | nil => exact hw
  | cons a list ih =>
    cases a with
    | set column value =>
      simp only [assignmentsWritten, except_bind_ok] at hw
      obtain ⟨first, hfirst, others, hothers, hpure⟩ := hw
      obtain ⟨v, hv, hset⟩ := except_bind_ok.mp hfirst
      cases hpure
      cases hset
      simp only [assignmentsFilled, assignmentsWritten, assignmentWritten,
        value.written_filled h hv, ih hothers]
      rfl
    | hole id =>
      simp only [assignmentsWritten, except_bind_ok] at hw
      obtain ⟨bound, hbound, others, hothers, hpure⟩ := hw
      cases hpure
      rw [assignmentsFilled]
      exact assignmentsWritten_append (h.assignments id bound hbound) (ih hothers)

theorem rowsWritten_filled (h : f.Follows holes closed) {data : List (List Expr)}
    {w : List (List (List Lexeme))} (hw : rowsWritten holes data = .ok w) :
    rowsWritten closed (data.map (exprsFilled f)) = .ok w := by
  induction data generalizing w with
  | nil => exact hw
  | cons row data ih =>
    rw [rowsWritten, List.mapM_cons] at hw
    obtain ⟨first, hfirst, hw⟩ := except_bind_ok.mp hw
    obtain ⟨others, hothers, hpure⟩ := except_bind_ok.mp hw
    cases hpure
    have hrest := ih hothers
    rw [rowsWritten] at hrest
    rw [List.map_cons, rowsWritten, List.mapM_cons, exprsWritten_filled h row hfirst, hrest]
    rfl

theorem insertWritten_filled (h : f.Follows holes closed) {target : InsertTarget}
    {columns : List String} {source : InsertSource} {w : List Lexeme}
    (hw : insertWritten holes target columns source = .ok w) :
    insertWritten closed target columns (source.filled f) = .ok w := by
  unfold insertWritten at hw ⊢
  simp only at hw ⊢
  split at hw
  · rename_i hnone
    rw [if_pos hnone]
    exact hw
  · rename_i hsome
    rw [if_neg hsome]
    cases source with
    | rows data =>
      obtain ⟨written, hwritten, hpure⟩ := except_bind_ok.mp hw
      cases hpure
      simp only [InsertSource.filled, rowsWritten_filled h hwritten]
      rfl
    | hole id =>
      obtain ⟨written, hwritten, hpure⟩ := except_bind_ok.mp hw
      cases hpure
      obtain ⟨data, hdata, hclosed⟩ := h.rows id written hwritten
      simp only [InsertSource.filled, hdata, hclosed]
      rfl
    | query query =>
      obtain ⟨q, hq, hpure⟩ := except_bind_ok.mp hw
      cases hpure
      simp only [InsertSource.filled, query.written_filled h hq]
      rfl

theorem mergeInsertWritten_filled (h : f.Follows holes closed) {insert : Option MergeInsert}
    {w : List Lexeme} (hw : mergeInsertWritten holes insert = .ok w) :
    mergeInsertWritten closed (insert.map fun i => { i with values := exprsFilled f i.values }) =
      .ok w := by
  cases insert with
  | none => exact hw
  | some insert =>
    rw [mergeInsertWritten] at hw
    rw [Option.map_some, mergeInsertWritten]
    split at hw
    · rename_i hnone
      rw [if_pos hnone]
      exact hw
    · rename_i hsome
      rw [if_neg hsome]
      obtain ⟨values, hvalues, hpure⟩ := except_bind_ok.mp hw
      cases hpure
      rw [exprsWritten_filled h insert.values hvalues]
      rfl

theorem outputWritten_filled (h : f.Follows holes closed) {output : Option OutputInto}
    {w : List Lexeme} (hw : outputWritten holes output = .ok w) :
    outputWritten closed (output.map fun o => { o with exprs := exprsFilled f o.exprs }) =
      .ok w := by
  cases output with
  | none => exact hw
  | some output =>
    obtain ⟨exprs, hexprs, hpure⟩ := except_bind_ok.mp hw
    cases hpure
    rw [Option.map_some, outputWritten, exprsWritten_filled h output.exprs hexprs]
    rfl

theorem mergeWritten_filled (h : f.Follows holes closed) {m : Merge} {w : List Lexeme}
    (hw : mergeWritten holes m = .ok w) : mergeWritten closed (m.filled f) = .ok w := by
  simp only [mergeWritten, except_bind_ok] at hw
  obtain ⟨target, htarget, source, hsource, condition, hcondition, assignments, hassignments, insert,
    hinsert, output, houtput, hpure⟩ := hw
  cases hpure
  simp only [mergeWritten, Merge.filled, m.target.written_filled h htarget,
    m.source.written_filled h hsource, m.condition.written_filled h hcondition,
    assignmentsWritten_filled h hassignments, mergeInsertWritten_filled h hinsert,
    outputWritten_filled h houtput]
  rfl

theorem updateWritten_filled (h : f.Follows holes closed) {u : Update} {w : List Lexeme}
    (hw : updateWritten holes u = .ok w) : updateWritten closed (u.filled f) = .ok w := by
  unfold updateWritten at hw ⊢
  obtain ⟨assignments, hassignments, hw⟩ := except_bind_ok.mp hw
  simp only [Update.filled, assignmentsWritten_filled h hassignments]
  split at hw
  · cases hw
  · rename_i hkept
    obtain ⟨source, hsource, hw⟩ := except_bind_ok.mp hw
    obtain ⟨filter, hfilter, hpure⟩ := except_bind_ok.mp hw
    cases hpure
    simp only [sourceWritten_filled h u.source hsource, optionalWritten_filled h u.filter hfilter]
    show (if assignments.isEmpty = true then _ else _) = _
    rw [if_neg hkept]
    rfl

/-- Filling leaves the head of a delete as it is. -/
theorem deleteHead_filled (f : HoleFiller) (source : Factor) :
    deleteHead (source.filled f) = deleteHead source := by
  cases source with
  | table _ aliasName => rfl
  | tableVar _ _ => rfl
  | derived _ _ => rfl

theorem Statement.written_filled (h : f.Follows holes closed) {st : Statement} {w : List Lexeme}
    (hw : st.written holes = .ok w) : (st.filled f).written closed = .ok w := by
  cases st with
  | declare name columns => exact hw
  | delete source filter =>
    simp only [Statement.written, except_bind_ok] at hw
    obtain ⟨s, hs, condition, hcondition, hpure⟩ := hw
    cases hpure
    simp only [Statement.filled, Statement.written, source.written_filled h hs,
      optionalWritten_filled h filter hcondition, deleteHead_filled]
    rfl
  | insert target columns source => exact insertWritten_filled h hw
  | merge m => exact mergeWritten_filled h hw
  | query q => exact q.written_filled h hw
  | update u => exact updateWritten_filled h hw

end Written

namespace HoleFiller

/-- The holes that a substitution binds are filled with what it binds to them, whatever fills the holes
in that. -/
theorem ofSubstitution_eq_filling (subs : Substitution) :
    ∃ inner, ofSubstitution subs = filling subs inner := by
  unfold ofSubstitution
  cases subs.size with
  | zero => exact ⟨_, rfl⟩
  | succ depth => exact ⟨_, rfl⟩

/-- A printer that refuses all holes is followed by any filler. -/
theorem follows_refusing (f : HoleFiller) (fault : HoleId → Fault) (closed : HolePrinter) :
    f.Follows (.refusing fault) closed := ⟨nofun, nofun, nofun, nofun⟩

theorem Follows.filling {subs : Substitution} {inner : HoleFiller} {holes closed : HolePrinter}
    (h : inner.Follows holes closed) :
    (HoleFiller.filling subs inner).Follows (.filling subs holes) closed where
  expr := by
    intro id w hw
    simp only [HolePrinter.filling, HoleFiller.filling] at hw ⊢
    split at hw
    · rename_i e hfound
      rw [hfound]
      exact e.written_filled h hw
    · cases hw
    · cases hw
  order := by
    intro id w hw
    simp only [HolePrinter.filling, HoleFiller.filling] at hw ⊢
    split at hw
    · rename_i terms hfound
      rw [hfound]
      exact orderTermsWritten_filled h hw
    · cases hw
    · cases hw
  assignments := by
    intro id w hw
    simp only [HolePrinter.filling, HoleFiller.filling] at hw ⊢
    split at hw
    · rename_i list hfound
      rw [hfound]
      exact boundWritten_filled h hw
    · cases hw
    · cases hw
  rows := by
    intro id w hw
    simp only [HolePrinter.filling, HoleFiller.filling] at hw ⊢
    split at hw
    · rename_i data hfound
      rw [hfound]
      exact ⟨_, rfl, rowsWritten_filled h hw⟩
    · cases hw
    · cases hw

theorem follows_nested (subs : Substitution) (closed : HolePrinter) (depth : Nat) :
    (nested subs depth).Follows (.nested subs depth) closed := by
  induction depth with
  | zero => exact (follows_refusing keeping .circular closed).filling
  | succ depth ih => exact ih.filling

end HoleFiller

theorem Batch.statements_filled {subs : Substitution} {batch : Batch} {w : List (List Lexeme)}
    (h : batch.mapM (Statement.written (.ofSubstitution subs)) = .ok w) :
    (batch.filled subs).mapM (Statement.written (.ofSubstitution .empty)) = .ok w := by
  induction batch generalizing w with
  | nil => exact h
  | cons st rest ih =>
    rw [List.mapM_cons] at h
    obtain ⟨first, hfirst, h⟩ := except_bind_ok.mp h
    obtain ⟨others, hothers, hpure⟩ := except_bind_ok.mp h
    cases hpure
    have hfollows := HoleFiller.follows_nested subs (.ofSubstitution .empty) subs.size
    rw [Batch.filled, List.map_cons, List.mapM_cons]
    apply except_bind_ok.mpr
    refine ⟨first, st.written_filled hfollows hfirst, ?_⟩
    apply except_bind_ok.mpr
    exact ⟨others, ih hothers, rfl⟩

/-- The text of a batch under a substitution is the text of the filled batch under none. -/
theorem Batch.render_filled {batch : Batch} {subs : Substitution} {sql : String}
    (h : batch.render subs = .ok sql) : (batch.filled subs).render .empty = .ok sql := by
  unfold Batch.render Batch.written at h ⊢
  cases hwritten : batch.mapM (Statement.written (.ofSubstitution subs)) with
  | error fault =>
    rw [hwritten] at h
    cases h
  | ok w =>
    rw [hwritten] at h
    rw [Batch.statements_filled hwritten]
    exact h

end ShapeSql.Sql
