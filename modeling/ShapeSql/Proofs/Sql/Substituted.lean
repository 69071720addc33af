import Mathlib.Data.List.Perm.Subperm
import Mathlib.Logic.Relation
import ShapeSql.Proofs.Sql.Holes

/-!
Writing after substituting. A batch written out under a substitution is the batch that is written out
under none once each hole has what it is bound to in its place, holes within that replaced as well: lists of
terms and assignments are spliced in, and the writer decides about clauses, branches and groups of rows
on the same items. It takes a substitution that suits the batch, that is, one that binds each hole that can
be reached to what its place needs, without going in circles.
-/

namespace ShapeSql.Sql

section Written

variable {f : HoleFiller} {holes closed : HolePrinter}

/-- What stands in the hole is written by `closed` as the hole is by `holes`, faults included. -/
def HoleFiller.Renders (f : HoleFiller) (holes closed : HolePrinter) : Opening → Prop
  | (.expr, id) => (f.expr id).written closed = holes.expr id
  | (.order, id) => orderItemsWritten closed (f.order id) = holes.order id
  | (.assignments, id) => assignmentsWritten closed (f.assignments id) = holes.assignments id
  | (.rows, id) => ∃ data, f.rows id = .rows data ∧ rowsWritten closed data = holes.rows id

/-- Items that are spliced into an ordering are written one after the other. -/
theorem orderItemsWritten_splice (xs ys : List OrderItem) : orderItemsWritten closed (xs ++ ys) = (do
    let first ← orderItemsWritten closed xs
    let others ← orderItemsWritten closed ys
    return first ++ others) := by
  induction xs with
  | nil =>
    rw [List.nil_append, orderItemsWritten]
    exact (bind_pure _).symm
  | cons x xs ih =>
    cases x with
    | term t =>
      obtain ⟨expr, direction⟩ := t
      rw [List.cons_append, orderItemsWritten, orderItemsWritten, ih]
      simp only [bind_assoc, pure_bind, List.cons_append]
    | hole id =>
      rw [List.cons_append, orderItemsWritten, orderItemsWritten, ih]
      simp only [bind_assoc, pure_bind, List.append_assoc]

theorem assignmentsWritten_splice (xs ys : List Assignment) :
    assignmentsWritten closed (xs ++ ys) = (do
      let first ← assignmentsWritten closed xs
      let others ← assignmentsWritten closed ys
      return first ++ others) := by
  induction xs with
  | nil =>
    rw [List.nil_append, assignmentsWritten]
    exact (bind_pure _).symm
  | cons x xs ih =>
    cases x with
    | set column value =>
      rw [List.cons_append, assignmentsWritten, assignmentsWritten, ih]
      · simp only [bind_assoc, pure_bind, List.cons_append]
      · intro id hset
        cases hset
      · intro id hset
        cases hset
    | hole id =>
      rw [List.cons_append, assignmentsWritten, assignmentsWritten, ih]
      simp only [bind_assoc, pure_bind, List.append_assoc]

mutual

theorem Expr.written_substituted : ∀ e : Expr,
    (∀ h ∈ e.collect .holes (), f.Renders holes closed h) →
      (e.filled f).written closed = e.written holes
  | .all operands, h | .any operands, h => by
    rw [Expr.collect] at h
    rw [Expr.filled, Expr.written, Expr.written, exprsWritten_substituted operands h]
  | .compare left _ right, h | .like left right _, h => by
    rw [Expr.collect, List.forall_mem_append] at h
    rw [Expr.filled, Expr.written, Expr.written, left.written_substituted h.1,
      right.written_substituted h.2]
  | .exists query _, h => by
    rw [Expr.collect] at h
    rw [Expr.filled, Expr.written, Expr.written, query.written_substituted h]
  | .group inner, h | .isNull inner _, h => by
    rw [Expr.collect] at h
    rw [Expr.filled, Expr.written, Expr.written, inner.written_substituted h]
  | .hole id, h => by
    rw [Expr.filled, Expr.written]
    exact h _ List.mem_cons_self
  | .inList item [] _, h => by
    rw [Expr.filled, exprsFilled, Expr.written, Expr.written]
  | .inList item (first :: rest) _, h => by
    rw [Expr.collect] at h
    simp only [List.forall_mem_append] at h
    rw [Expr.filled, exprsFilled, Expr.written, Expr.written, item.written_substituted h.1,
      first.written_substituted h.2.1, exprsWritten_substituted rest h.2.2]
  | .column _ _, _ | .countAll, _ | .int _, _ | .text _, _ | .null, _ | .param _, _ => by
    rw [Expr.filled, Expr.written, Expr.written]

theorem exprsWritten_substituted : ∀ es : List Expr,
    (∀ h ∈ exprsCollect .holes () es, f.Renders holes closed h) →
      exprsWritten closed (exprsFilled f es) = exprsWritten holes es
  | [], _ => by rw [exprsFilled, exprsWritten, exprsWritten]
  | e :: es, h => by
    rw [exprsCollect, List.forall_mem_append] at h
    rw [exprsFilled, exprsWritten, exprsWritten, e.written_substituted h.1,
      exprsWritten_substituted es h.2]

theorem optionalWritten_substituted : ∀ e : Option Expr,
    (∀ h ∈ optionalCollect .holes () e, f.Renders holes closed h) →
      optionalWritten closed (optionalFilled f e) = optionalWritten holes e
  | none, _ => by rw [optionalFilled, optionalWritten, optionalWritten]
  | some e, h => by
    rw [optionalCollect] at h
    rw [optionalFilled, optionalWritten, optionalWritten, e.written_substituted h]

theorem Query.written_substituted : ∀ q : Query,
    (∀ h ∈ q.collect .holes (), f.Renders holes closed h) →
      (q.filled f).written closed = q.written holes
  | ⟨distinct, projection, source, filter, groupBy, orderBy, offset, fetch⟩, h => by
    rw [Query.collect] at h
    simp only [List.forall_mem_append] at h
    obtain ⟨_, hprojection, hsource, hfilter, hgroups, horder, hoffset, hfetch⟩ := h
    rw [Query.filled, Query.written, Query.written, projectedWritten_substituted projection hprojection,
      sourceWritten_substituted source hsource, optionalWritten_substituted filter hfilter,
      exprsWritten_substituted groupBy hgroups, orderItemsWritten_substituted orderBy horder,
      optionalWritten_substituted offset hoffset, optionalWritten_substituted fetch hfetch]

theorem projectedWritten_substituted : ∀ ps : List Projected,
    (∀ h ∈ projectedCollect .holes () ps, f.Renders holes closed h) →
      projectedWritten closed (projectedFilled f ps) = projectedWritten holes ps
  | [], _ => by rw [projectedFilled, projectedWritten, projectedWritten]
  | ⟨expr, aliasName⟩ :: rest, h => by
    rw [projectedCollect, List.forall_mem_append] at h
    rw [projectedFilled, projectedWritten, projectedWritten, expr.written_substituted h.1,
      projectedWritten_substituted rest h.2]

theorem sourceWritten_substituted : ∀ s : Option Source,
    (∀ h ∈ sourceCollect .holes () s, f.Renders holes closed h) →
      sourceWritten closed (sourceFilled f s) = sourceWritten holes s
  | none, _ => by rw [sourceFilled, sourceWritten, sourceWritten]
  | some ⟨base, joins⟩, h => by
    rw [sourceCollect] at h
    simp only [List.forall_mem_append] at h
    rw [sourceFilled, sourceWritten, sourceWritten, base.written_substituted h.2.1,
      joinsWritten_substituted joins [base] h.2.2]

theorem joinsWritten_substituted : ∀ (js : List Join) (joined : List Factor),
    (∀ h ∈ joinsCollect .holes () joined js, f.Renders holes closed h) →
      joinsWritten closed (joinsFilled f js) = joinsWritten holes js
  | [], _, _ => by rw [joinsFilled, joinsWritten, joinsWritten]
  | ⟨kind, factor, condition⟩ :: rest, joined, h => by
    rw [joinsCollect] at h
    simp only [List.forall_mem_append] at h
    rw [joinsFilled, joinsWritten, joinsWritten, factor.written_substituted h.1,
      condition.written_substituted h.2.1, joinsWritten_substituted rest _ h.2.2]

theorem Factor.written_substituted : ∀ s : Factor,
    (∀ h ∈ s.collect .holes (), f.Renders holes closed h) →
      (s.filled f).written closed = s.written holes
  | .table _ _, _ | .tableVar _ _, _ => by rw [Factor.filled, Factor.written, Factor.written]
  | .derived query _, h => by
    rw [Factor.collect] at h
    rw [Factor.filled, Factor.written, Factor.written, query.written_substituted h]

theorem orderItemsWritten_substituted : ∀ items : List OrderItem,
    (∀ h ∈ orderItemsCollect .holes () items, f.Renders holes closed h) →
      orderItemsWritten closed (orderItemsFilled f items) = orderItemsWritten holes items
  | [], _ => by rw [orderItemsFilled, orderItemsWritten, orderItemsWritten]
  | .term ⟨expr, direction⟩ :: rest, h => by
    rw [orderItemsCollect, List.forall_mem_append] at h
    rw [orderItemsFilled, orderItemsWritten, orderItemsWritten, expr.written_substituted h.1,
      orderItemsWritten_substituted rest h.2]
  | .hole id :: rest, h => by
    rw [orderItemsCollect, List.forall_mem_append] at h
    have hfirst : orderItemsWritten closed (f.order id) = holes.order id := h.1 _ List.mem_cons_self
    rw [orderItemsFilled, orderItemsWritten_splice, orderItemsWritten, hfirst,
      orderItemsWritten_substituted rest h.2]

end

theorem orderTermsWritten_substituted {terms : List OrderTerm}
    (h : ∀ opening ∈ (Fragment.order terms).collect .holes (), f.Renders holes closed opening) :
    orderItemsWritten closed (terms.map fun t => .term (t.filled f)) =
      orderTermsWritten holes terms := by
  rw [Fragment.collect] at h
  induction terms with
  | nil => rw [List.map_nil, orderItemsWritten, orderTermsWritten, List.mapM_nil]; rfl
  | cons t terms ih =>
    obtain ⟨expr, direction⟩ := t
    rw [List.flatMap_cons, List.forall_mem_append] at h
    have hrest := ih h.2
    rw [orderTermsWritten] at hrest
    rw [List.map_cons, OrderTerm.filled, orderItemsWritten, orderTermsWritten, List.mapM_cons,
      expr.written_substituted h.1, hrest]
    simp only [bind_assoc, pure_bind]

/-- Bound assignments, none of which is a hole, are written as they are when they are spliced in. -/
theorem boundWritten_substituted {list : List Assignment} (hplain : ∀ id, .hole id ∉ list)
    (h : ∀ opening ∈ list.flatMap (Assignment.collect .holes ()), f.Renders holes closed opening) :
    assignmentsWritten closed (assignmentsFilled f list) = list.mapM (assignmentWritten holes) := by
  induction list with
  | nil => rw [assignmentsFilled, assignmentsWritten, List.mapM_nil]; rfl
  | cons a list ih =>
    rw [List.flatMap_cons, List.forall_mem_append] at h
    have hrest := ih (fun id hmem => hplain id (List.mem_cons_of_mem _ hmem)) h.2
    cases a with
    | set column value =>
      have hvalue : (value.filled f).written closed = value.written holes :=
        value.written_substituted h.1
      rw [assignmentsFilled, assignmentsWritten, List.mapM_cons, assignmentWritten,
        assignmentWritten, hvalue, hrest]
      intro id hset
      cases hset
    | hole id => exact absurd List.mem_cons_self (hplain id)

theorem assignmentsWritten_substituted {list : List Assignment}
    (h : ∀ opening ∈ list.flatMap (Assignment.collect .holes ()), f.Renders holes closed opening) :
    assignmentsWritten closed (assignmentsFilled f list) = assignmentsWritten holes list := by
  induction list with
  | nil => rw [assignmentsFilled, assignmentsWritten, assignmentsWritten]
  | cons a list ih =>
    rw [List.flatMap_cons, List.forall_mem_append] at h
    cases a with
    | set column value =>
      have hvalue : (value.filled f).written closed = value.written holes :=
        value.written_substituted h.1
      rw [assignmentsFilled, assignmentsWritten, assignmentsWritten, assignmentWritten,
        assignmentWritten, hvalue, ih h.2]
      · intro id hset
        cases hset
      · intro id hset
        cases hset
    | hole id =>
      have hfirst : assignmentsWritten closed (f.assignments id) = holes.assignments id :=
        h.1 _ List.mem_cons_self
      rw [assignmentsFilled, assignmentsWritten_splice, assignmentsWritten, hfirst, ih h.2]

theorem rowsWritten_substituted {data : List (List Expr)}
    (h : ∀ opening ∈ data.flatMap (exprsCollect .holes ()), f.Renders holes closed opening) :
    rowsWritten closed (data.map (exprsFilled f)) = rowsWritten holes data := by
  induction data with
  | nil => rfl
  | cons row data ih =>
    rw [List.flatMap_cons, List.forall_mem_append] at h
    have hrest := ih h.2
    rw [rowsWritten, rowsWritten] at hrest
    rw [List.map_cons, rowsWritten, rowsWritten, List.mapM_cons, List.mapM_cons,
      exprsWritten_substituted row h.1, hrest]

theorem insertWritten_substituted {target : InsertTarget} {columns : List String}
    {source : InsertSource} (h : ∀ opening ∈ source.collect .holes (), f.Renders holes closed opening) :
    insertWritten closed target columns (source.filled f) =
      insertWritten holes target columns source := by
  unfold insertWritten
  cases source with
  | rows data => simp only [InsertSource.filled, rowsWritten_substituted h]
  | hole id =>
    obtain ⟨data, hdata, hwritten⟩ := h _ List.mem_cons_self
    simp only [InsertSource.filled, hdata, hwritten]
  | query q => simp only [InsertSource.filled, q.written_substituted h]

theorem mergeWritten_substituted {m : Merge}
    (h : ∀ opening ∈ m.collect .holes (), f.Renders holes closed opening) :
    mergeWritten closed (m.filled f) = mergeWritten holes m := by
  rw [Merge.collect] at h
  simp only [List.forall_mem_append] at h
  obtain ⟨htarget, hsource, hcondition, hmatched, hinsert, houtput⟩ := h
  have hinserted : mergeInsertWritten closed (m.filled f).notMatchedInsert =
      mergeInsertWritten holes m.notMatchedInsert := by
    rw [Merge.filled]
    cases hinto : m.notMatchedInsert with
    | none => rfl
    | some insert =>
      rw [hinto] at hinsert
      rw [Option.map_some, mergeInsertWritten, mergeInsertWritten,
        exprsWritten_substituted insert.values hinsert]
  have hreturned : outputWritten closed (m.filled f).output = outputWritten holes m.output := by
    rw [Merge.filled]
    cases hinto : m.output with
    | none => rfl
    | some output =>
      rw [hinto] at houtput
      rw [Option.map_some, outputWritten, outputWritten,
        exprsWritten_substituted output.exprs houtput]
  rw [mergeWritten, mergeWritten, hinserted, hreturned]
  simp only [Merge.filled, m.target.written_substituted htarget,
    m.source.written_substituted hsource, m.condition.written_substituted hcondition,
    assignmentsWritten_substituted hmatched]

theorem updateWritten_substituted {u : Update}
    (h : ∀ opening ∈ u.collect .holes (), f.Renders holes closed opening) :
    updateWritten closed (u.filled f) = updateWritten holes u := by
  rw [Update.collect] at h
  simp only [List.forall_mem_append] at h
  simp only [updateWritten, Update.filled, assignmentsWritten_substituted h.1,
    sourceWritten_substituted u.source h.2.1, optionalWritten_substituted u.filter h.2.2]

theorem Statement.written_substituted {st : Statement}
    (h : ∀ opening ∈ st.collect .holes (), f.Renders holes closed opening) :
    (st.filled f).written closed = st.written holes := by
  cases st with
  | declare _ _ => rfl
  | delete source filter =>
    rw [Statement.collect, List.forall_mem_append] at h
    rw [Statement.filled, Statement.written, Statement.written, source.written_substituted h.1,
      optionalWritten_substituted filter h.2, deleteHead_filled]
  | insert target columns source =>
    exact insertWritten_substituted fun opening hopening => h opening (List.mem_append_right _ hopening)
  | merge m => exact mergeWritten_substituted h
  | query q => exact q.written_substituted h
  | update u => exact updateWritten_substituted h

end Written

section Substitutions

variable {subs : Substitution} {batch : Batch} {f : HoleFiller}

/-- A hole can be reached: it stands in a statement of the batch, or in what a hole that can be reached is
bound to. -/
inductive Substitution.Reaches (subs : Substitution) (batch : Batch) : Opening → Prop where
  | statement {st : Statement} {opening : Opening} :
    st ∈ batch → opening ∈ st.collect .holes () → Reaches subs batch opening
  | fragment {outer opening : Opening} {fragment : Fragment} :
    Reaches subs batch outer → subs.find? outer.2 = some fragment →
      opening ∈ fragment.collect .holes () → Reaches subs batch opening

/-- The first hole stands in what the second one is bound to. -/
def Substitution.Within (subs : Substitution) (inner outer : HoleId) : Prop :=
  ∃ fragment place, subs.find? outer = some fragment ∧ (place, inner) ∈ fragment.collect .holes ()

/-- The substitution binds each hole that can be reached to a fragment of the kind that its place needs, no
chain of holes comes back to where it started, and no bound assignment is itself a hole. -/
structure Substitution.Suits (subs : Substitution) (batch : Batch) : Prop where
  bound : ∀ place id, subs.Reaches batch (place, id) →
    ∃ fragment, subs.find? id = some fragment ∧ fragment.place = place
  acyclic : ∀ place id, subs.Reaches batch (place, id) → ¬Relation.TransGen subs.Within id id
  plain : ∀ place id list, subs.Reaches batch (place, id) →
    subs.find? id = some (.assignments list) → ∀ hole, .hole hole ∉ list

/-- Each hole that can be reached is replaced by what it is bound to, its own holes replaced as well. -/
structure HoleFiller.Substitutes (f : HoleFiller) (subs : Substitution) (batch : Batch) : Prop where
  expr : ∀ id e, subs.Reaches batch (.expr, id) → subs.find? id = some (.expr e) →
    f.expr id = e.filled f
  order : ∀ id terms, subs.Reaches batch (.order, id) → subs.find? id = some (.order terms) →
    f.order id = terms.map fun t => .term (t.filled f)
  assignments : ∀ id list, subs.Reaches batch (.assignments, id) →
    subs.find? id = some (.assignments list) → f.assignments id = assignmentsFilled f list
  rows : ∀ id data, subs.Reaches batch (.rows, id) → subs.find? id = some (Fragment.rows data) →
    f.rows id = .rows (data.map (exprsFilled f))

/-- No chain of holes within holes that starts at this one is longer. -/
def Substitution.Ends (subs : Substitution) : Nat → HoleId → Prop
  | 0, _ => False
  | n + 1, id => ∀ inner, subs.Within inner id → subs.Ends n inner

namespace Substitution

/-- Different holes that are bound are no more than there are bindings. -/
theorem length_le_size {ids : List HoleId} (hnodup : ids.Nodup)
    (hbound : ∀ id ∈ ids, ∃ fragment, subs.find? id = some fragment) : ids.length ≤ subs.size := by
  have hsub : ids ⊆ subs.fragments.map Prod.fst := by
    intro id hid
    obtain ⟨fragment, hfound⟩ := hbound id hid
    rw [find?, Option.map_eq_some_iff] at hfound
    obtain ⟨entry, hentry, _⟩ := hfound
    refine List.mem_map.mpr ⟨entry, List.mem_of_find?_eq_some hentry, ?_⟩
    simpa using List.find?_some hentry
  have hle := (hnodup.subperm hsub).length_le
  rw [List.length_map] at hle
  exact hle

section Chains

variable {R : HoleId → HoleId → Prop} {P : HoleId → Prop} {E : Nat → HoleId → Prop}

/-- A chain of different holes ends before the bindings are used up: `above` are the holes that the
chain has come through. -/
theorem along_chain (hbound : ∀ id, P id → ∃ fragment, subs.find? id = some fragment)
    (hacyclic : ∀ id, P id → ¬Relation.TransGen R id id)
    (hinner : ∀ id inner, P id → R inner id → P inner)
    (hstep : ∀ n id, P id → (∀ inner, R inner id → E n inner) → E (n + 1) id)
    {n : Nat} {above : List HoleId} (hnodup : above.Nodup)
    (habove : ∀ id ∈ above, ∃ fragment, subs.find? id = some fragment)
    (hlong : subs.size < n + above.length) {id : HoleId} (h : P id)
    (hwithin : ∀ outer ∈ above, Relation.TransGen R id outer) : E n id := by
  induction n generalizing above id with
  | zero =>
    have hle := length_le_size hnodup habove
    omega
  | succ n ih =>
    refine hstep n id h ?_
    intro inner hR
    have hnew : id ∉ above := fun hmem => hacyclic id h (hwithin id hmem)
    have hnodup' : (id :: above).Nodup := List.nodup_cons.mpr ⟨hnew, hnodup⟩
    refine ih hnodup' ?_ ?_ (hinner id inner h hR) ?_
    · exact List.forall_mem_cons.mpr ⟨hbound id h, habove⟩
    · rw [List.length_cons]
      omega
    · exact List.forall_mem_cons.mpr
        ⟨.single hR, fun outer houter => .head hR (hwithin outer houter)⟩

/-- Induction along chains of bound holes that never come back to where they started: a property holds
that a hole has as soon as the holes within it have it for chains shorter by one. -/
theorem chain_induction (hbound : ∀ id, P id → ∃ fragment, subs.find? id = some fragment)
    (hacyclic : ∀ id, P id → ¬Relation.TransGen R id id)
    (hinner : ∀ id inner, P id → R inner id → P inner)
    (hstep : ∀ n id, P id → (∀ inner, R inner id → E n inner) → E (n + 1) id)
    {id : HoleId} (h : P id) : E (subs.size + 1) id :=
  along_chain hbound hacyclic hinner hstep List.nodup_nil (List.forall_mem_nil _)
    (Nat.lt_succ_self _) h (List.forall_mem_nil _)

end Chains

theorem Suits.ends (h : subs.Suits batch) {opening : Opening}
    (hreaches : subs.Reaches batch opening) : subs.Ends (subs.size + 1) opening.2 := by
  refine chain_induction (R := subs.Within) (P := fun id => ∃ place, subs.Reaches batch (place, id))
    (E := subs.Ends) ?_ ?_ ?_ (fun _ _ _ hinner => hinner) ⟨opening.1, hreaches⟩
  · rintro id ⟨place, hreaches⟩
    obtain ⟨fragment, hfound, _⟩ := h.bound place id hreaches
    exact ⟨fragment, hfound⟩
  · rintro id ⟨place, hreaches⟩
    exact h.acyclic place id hreaches
  · rintro id inner ⟨_, hreaches⟩ ⟨fragment, place, hfound, hinner⟩
    exact ⟨place, .fragment hreaches hfound hinner⟩

end Substitution

namespace HoleFiller

/-- What two layers put into a hole that both bind alike differs only where what they put into the holes
of its fragment does. -/
theorem filling_agrees {others : Substitution} {inner other : HoleFiller} {opening : Opening}
    (hsame : subs.find? opening.2 = others.find? opening.2)
    (h : ∀ fragment, subs.find? opening.2 = some fragment →
      ∀ below ∈ fragment.collect .holes (), inner.Agrees other below) :
    (filling subs inner).Agrees (filling others other) opening := by
  obtain ⟨place, id⟩ := opening
  cases place with
  | expr =>
    simp only [Agrees, filling, ← hsame]
    split
    · rename_i e hfound
      exact e.filled_congr (h _ hfound)
    · rfl
  | order =>
    simp only [Agrees, filling, ← hsame]
    split
    · rename_i terms hfound
      have hterms := congrArg (List.map OrderItem.term) (orderTermsFilled_congr (h _ hfound))
      rw [List.map_map, List.map_map] at hterms
      exact hterms
    · rfl
  | assignments =>
    simp only [Agrees, filling, ← hsame]
    split
    · rename_i list hfound
      exact assignmentsFilled_congr (h _ hfound)
    · rfl
  | rows =>
    simp only [Agrees, filling, ← hsame]
    split
    · rename_i data hfound
      rw [rowsFilled_congr (h _ hfound)]
    · rfl

/-- As many layers as the chain of holes that starts at a hole is long put the same into it as more do. -/
theorem nested_agrees {n m : Nat} (hle : n ≤ m) {opening : Opening}
    (hends : subs.Ends (n + 1) opening.2) : (nested subs n).Agrees (nested subs m) opening := by
  induction n generalizing m opening with
  | zero =>
    have hnone : ∀ fragment, subs.find? opening.2 = some fragment →
        ∀ below ∈ fragment.collect .holes (), False :=
      fun fragment hfound below hbelow => hends below.2 ⟨fragment, below.1, hfound, hbelow⟩
    cases m with
    | zero => exact filling_agrees rfl fun fragment hfound below hbelow =>
        (hnone fragment hfound below hbelow).elim
    | succ m => exact filling_agrees rfl fun fragment hfound below hbelow =>
        (hnone fragment hfound below hbelow).elim
  | succ n ih =>
    cases m with
    | zero => exact absurd hle (Nat.not_succ_le_zero n)
    | succ m =>
      refine filling_agrees rfl ?_
      intro fragment hfound below hbelow
      exact ih (Nat.le_of_succ_le_succ hle) (hends below.2 ⟨fragment, below.1, hfound, hbelow⟩)

/-- The layers of a substitution that suits a batch replace all of the batch's holes. -/
theorem ofSubstitution_substitutes (h : subs.Suits batch) :
    (ofSubstitution subs).Substitutes subs batch := by
  have hlayer : ∀ opening, subs.Reaches batch opening →
      (ofSubstitution subs).Agrees (filling subs (ofSubstitution subs)) opening :=
    fun opening hreaches => nested_agrees (Nat.le_succ _) (h.ends hreaches)
  constructor
  · intro id e hreaches hfound
    have hsame := hlayer _ hreaches
    simp only [Agrees, filling, hfound] at hsame
    exact hsame
  · intro id terms hreaches hfound
    have hsame := hlayer _ hreaches
    simp only [Agrees, filling, hfound] at hsame
    exact hsame
  · intro id list hreaches hfound
    have hsame := hlayer _ hreaches
    simp only [Agrees, filling, hfound] at hsame
    exact hsame
  · intro id data hreaches hfound
    have hsame := hlayer _ hreaches
    simp only [Agrees, filling, hfound] at hsame
    exact hsame

namespace Substitutes

/-- What is put into a hole has no holes any more, along the chain that starts at the hole. -/
theorem holesAt_eq_nil (hf : f.Substitutes subs batch) (h : subs.Suits batch) {n : Nat}
    {opening : Opening} (hreaches : subs.Reaches batch opening) (hends : subs.Ends n opening.2) :
    f.holesAt opening = [] := by
  have hholes := f.relates_holes.toRelates
  induction n generalizing opening with
  | zero => exact hends.elim
  | succ n ih =>
    obtain ⟨place, id⟩ := opening
    obtain ⟨fragment, hfound, rfl⟩ := h.bound place id hreaches
    have hbelow : (fragment.collect .holes ()).flatMap f.holesAt = [] := by
      rw [List.flatMap_eq_nil_iff]
      intro below hbelow
      exact ih (.fragment hreaches hfound hbelow) (hends below.2 ⟨fragment, below.1, hfound, hbelow⟩)
    cases fragment with
    | expr e =>
      show (f.expr id).collect .holes () = []
      rw [hf.expr id e hreaches hfound]
      exact (e.related hholes).trans hbelow
    | order terms =>
      show orderItemsCollect .holes () (f.order id) = []
      rw [hf.order id terms hreaches hfound]
      exact (orderTerms_related hholes terms).trans hbelow
    | assignments list =>
      show (f.assignments id).flatMap (Assignment.collect .holes ()) = []
      rw [hf.assignments id list hreaches hfound]
      exact (assignments_related f.relates_holes list).trans hbelow
    | rows data =>
      show (f.rows id).collect .holes () = []
      rw [hf.rows id data hreaches hfound]
      exact (rows_related hholes data).trans hbelow

/-- What is put into a hole is written as the layers of the printer write the hole. -/
theorem renders (hf : f.Substitutes subs batch) (h : subs.Suits batch) (closed : HolePrinter)
    {n : Nat} {opening : Opening} (hreaches : subs.Reaches batch opening)
    (hends : subs.Ends (n + 1) opening.2) :
    f.Renders (HolePrinter.nested subs n) closed opening := by
  -- A layer of the printer writes what the hole is bound to, and another one the holes within it.
  have hstep : ∀ (inner : HolePrinter) {opening : Opening}, subs.Reaches batch opening →
      (∀ fragment, subs.find? opening.2 = some fragment →
        ∀ below ∈ fragment.collect .holes (), f.Renders inner closed below) →
      f.Renders (.filling subs inner) closed opening := by
    rintro inner ⟨place, id⟩ hreaches hinner
    obtain ⟨fragment, hfound, rfl⟩ := h.bound place id hreaches
    have hbelow := hinner fragment hfound
    cases fragment with
    | expr e =>
      show (f.expr id).written closed = (HolePrinter.filling subs inner).expr id
      simp only [HolePrinter.filling, hfound]
      rw [hf.expr id e hreaches hfound]
      exact e.written_substituted hbelow
    | order terms =>
      show orderItemsWritten closed (f.order id) = (HolePrinter.filling subs inner).order id
      simp only [HolePrinter.filling, hfound]
      rw [hf.order id terms hreaches hfound]
      exact orderTermsWritten_substituted hbelow
    | assignments list =>
      show assignmentsWritten closed (f.assignments id) =
        (HolePrinter.filling subs inner).assignments id
      simp only [HolePrinter.filling, hfound]
      rw [hf.assignments id list hreaches hfound]
      exact boundWritten_substituted (h.plain _ id list hreaches hfound) hbelow
    | rows data =>
      refine ⟨_, hf.rows id data hreaches hfound, ?_⟩
      simp only [HolePrinter.filling, hfound]
      exact rowsWritten_substituted hbelow
  induction n generalizing opening with
  | zero =>
    refine hstep _ hreaches ?_
    intro fragment hfound below hbelow
    exact (hends below.2 ⟨fragment, below.1, hfound, hbelow⟩).elim
  | succ n ih =>
    refine hstep _ hreaches ?_
    intro fragment hfound below hbelow
    exact ih (.fragment hreaches hfound hbelow) (hends below.2 ⟨fragment, below.1, hfound, hbelow⟩)

end Substitutes

end HoleFiller

/-- Writing a batch out under a substitution that suits it is writing out, under none, the batch in which
each hole has been replaced by what it is bound to, again and again until no hole is left; faults are the
same as well. -/
theorem Batch.render_substituted (h : subs.Suits batch) :
    (HoleFiller.ofSubstitution subs).Substitutes subs batch ∧
      ∀ f : HoleFiller, f.Substitutes subs batch →
        (∀ st ∈ batch, (st.filled f).collect .holes () = []) ∧
          batch.render subs = Batch.render (batch.map (Statement.filled f)) .empty := by
  refine ⟨HoleFiller.ofSubstitution_substitutes h, ?_⟩
  intro f hf
  refine ⟨?_, ?_⟩
  · intro st hst
    refine (st.related f.relates_holes).trans (List.flatMap_eq_nil_iff.mpr ?_)
    intro opening hopening
    have hreaches : subs.Reaches batch opening := .statement hst hopening
    exact hf.holesAt_eq_nil h hreaches (h.ends hreaches)
  · have hwritten : ∀ st ∈ batch, (st.filled f).written (.ofSubstitution .empty) =
        st.written (.ofSubstitution subs) := by
      intro st hst
      apply Statement.written_substituted
      intro opening hopening
      have hreaches : subs.Reaches batch opening := .statement hst hopening
      exact hf.renders h _ hreaches (h.ends hreaches)
    have hbatch : (batch.map (Statement.filled f)).mapM (Statement.written (.ofSubstitution .empty)) =
        batch.mapM (Statement.written (.ofSubstitution subs)) := by
      clear h hf
      induction batch with
      | nil => rfl
      | cons st batch ih =>
        rw [List.forall_mem_cons] at hwritten
        rw [List.map_cons, List.mapM_cons, List.mapM_cons, hwritten.1, ih hwritten.2]
    rw [Batch.render, Batch.render, Batch.written, Batch.written, hbatch]

/-- Whether a fragment assigns without leaving one of the assignments open. -/
def Fragment.isPlain : Fragment → Bool
  | .assignments list => list.all fun
    | .set _ _ => true
    | .hole _ => false
  | _ => true

/-- Whether all holes, in the batch and in what is bound, are bound to what their places need, and those
within what a hole is bound to have lower ranks than the hole. -/
def Substitution.isRanked (subs : Substitution) (rank : HoleId → Nat) (batch : Batch) : Bool :=
  ((batch.flatMap (Statement.collect .holes ()) ++
      subs.fragments.flatMap fun entry => entry.2.collect .holes ()).all
    fun opening => (subs.find? opening.2).any fun fragment => fragment.place == opening.1) &&
  subs.fragments.all fun entry =>
    entry.2.isPlain && (entry.2.collect .holes ()).all fun inner => decide (rank inner.2 < rank entry.1)

namespace Substitution

theorem mem_of_find? {id : HoleId} {fragment : Fragment} (h : subs.find? id = some fragment) :
    (id, fragment) ∈ subs.fragments := by
  rw [find?, Option.map_eq_some_iff] at h
  obtain ⟨⟨bound, found⟩, hentry, rfl⟩ := h
  have hid : bound = id := by simpa using List.find?_some hentry
  rw [← hid]
  exact List.mem_of_find?_eq_some hentry

/-- A substitution whose holes can be ranked suits the batch. -/
theorem suits_of_isRanked {rank : HoleId → Nat} (h : subs.isRanked rank batch = true) :
    subs.Suits batch := by
  rw [isRanked, Bool.and_eq_true, List.all_eq_true, List.all_eq_true] at h
  obtain ⟨hbound, hranked⟩ := h
  have hentry : ∀ {id : HoleId} {fragment : Fragment}, subs.find? id = some fragment →
      fragment.isPlain = true ∧ ∀ inner ∈ fragment.collect .holes (), rank inner.2 < rank id := by
    intro id fragment hfound
    have hboth := hranked _ (mem_of_find? hfound)
    rw [Bool.and_eq_true, List.all_eq_true] at hboth
    exact ⟨hboth.1, fun inner hinner => of_decide_eq_true (hboth.2 inner hinner)⟩
  have hmem : ∀ opening, subs.Reaches batch opening →
      opening ∈ batch.flatMap (Statement.collect .holes ()) ++
        subs.fragments.flatMap fun entry => entry.2.collect .holes () := by
    intro opening hreaches
    cases hreaches with
    | statement hst hopening => exact List.mem_append_left _ (List.mem_flatMap.mpr ⟨_, hst, hopening⟩)
    | fragment _ hfound hopening =>
      exact List.mem_append_right _ (List.mem_flatMap.mpr ⟨_, mem_of_find? hfound, hopening⟩)
  -- Ranks fall along a chain, so none leads back to where it started.
  have hbelow : ∀ {inner outer : HoleId}, Relation.TransGen subs.Within inner outer →
      rank inner < rank outer := by
    intro inner outer hchain
    induction hchain with
    | single hstep =>
      obtain ⟨fragment, place, hfound, hinner⟩ := hstep
      exact (hentry hfound).2 _ hinner
    | tail _ hstep ih =>
      obtain ⟨fragment, place, hfound, hinner⟩ := hstep
      exact Nat.lt_trans ih ((hentry hfound).2 _ hinner)
  constructor
  · intro place id hreaches
    obtain ⟨fragment, hfound, hplace⟩ :=
      (Option.any_eq_true _ _).mp (hbound _ (hmem _ hreaches))
    exact ⟨fragment, hfound, by simpa using hplace⟩
  · intro place id _ hcycle
    exact absurd (hbelow hcycle) (Nat.lt_irrefl _)
  · intro place id list _ hfound hole hopen
    have hplain := (hentry hfound).1
    rw [Fragment.isPlain, List.all_eq_true] at hplain
    exact absurd (hplain _ hopen) Bool.false_ne_true

end Substitution

/-- People by what a hole asks for and in an order that another one says, a change of their columns, and new
rows: holes in each of the places. -/
def openBatch : Batch := [
  .query { Query.reading (.of (.table "Person" none)) with
    projection := [⟨.columnOf "Person" "Id", none⟩]
    filter := some (.exists { Query.reading (.of (.table "Pet" none)) with
      projection := [⟨.int 1, none⟩], filter := some (.hole ⟨0⟩) } false)
    orderBy := [.hole ⟨1⟩, .term ⟨.columnOf "Person" "Id", none⟩] },
  .update ⟨"Person", [.set "Age" (.int 3), .hole ⟨2⟩], none, some (.hole ⟨0⟩)⟩,
  .insert (.table "Person") ["Id", "Name"] (.hole ⟨3⟩)]

/-- What the holes are bound to, a hole of its own in most of it. -/
def openSubstitution : Substitution := ⟨[
  (⟨0⟩, .expr (.eq (.columnOf "Person" "Id") (.hole ⟨4⟩))),
  (⟨1⟩, .order [⟨.columnOf "Person" "Name", some .desc⟩]),
  (⟨2⟩, .assignments [.set "Name" (.hole ⟨4⟩), .set "Nick" .null]),
  (⟨3⟩, .rows [[.int 1, .hole ⟨4⟩], [.int 2, .null]]),
  (⟨4⟩, .expr (.param "Name"))]⟩

/-- The batch is written as it is once its holes are replaced. -/
theorem render_substituted_open :
    openSubstitution.Suits openBatch ∧ openBatch.render openSubstitution =
      (openBatch.filled openSubstitution).render .empty := by
  have hranked : openSubstitution.isRanked (fun id => 4 - id.index) openBatch = true := by
    decide +kernel
  have hsuits := Substitution.suits_of_isRanked hranked
  obtain ⟨hreplaced, hwritten⟩ := Batch.render_substituted hsuits
  exact ⟨hsuits, (hwritten _ hreplaced).2⟩

example : openBatch.render openSubstitution = .ok
    ("SELECT \"Person\".\"Id\" FROM \"Person\" WHERE EXISTS (SELECT 1 FROM \"Pet\" " ++
      "WHERE \"Person\".\"Id\" = @Name) ORDER BY \"Person\".\"Name\" DESC, \"Person\".\"Id\";\n" ++
      "UPDATE \"Person\" SET \"Age\" = 3, \"Name\" = @Name, \"Nick\" = NULL " ++
      "WHERE \"Person\".\"Id\" = @Name;\n" ++
      "INSERT INTO \"Person\" (\"Id\", \"Name\") VALUES (1, @Name), (2, NULL);") := by
  decide +kernel

end Substitutions

end ShapeSql.Sql
