import Mathlib.Data.List.Flatten
import ShapeSql.Proofs.Sql.Leaf
import ShapeSql.Proofs.Sql.Related

namespace ShapeSql.Sql

/-- A hole where a fragment of one kind is needed. -/
abbrev Opening := Place × HoleId

/-- The holes of a statement, each with what has to stand there. -/
def Collector.holes : Collector Unit Opening where
  hole _ place id := [(place, id)]

namespace HoleFiller

/-- The two put the same into the hole. -/
def Agrees (f g : HoleFiller) : Opening → Prop
  | (.expr, id) => f.expr id = g.expr id
  | (.order, id) => f.order id = g.order id
  | (.assignments, id) => f.assignments id = g.assignments id
  | (.rows, id) => f.rows id = g.rows id

/-- The holes of what is put into a hole. -/
def holesAt (f : HoleFiller) : Opening → List Opening
  | (.expr, id) => (f.expr id).collect .holes ()
  | (.order, id) => orderItemsCollect .holes () (f.order id)
  | (.assignments, id) => (f.assignments id).flatMap (Assignment.collect .holes ())
  | (.rows, id) => (f.rows id).collect .holes ()

end HoleFiller

section Congruence

variable {f g : HoleFiller}

mutual

theorem Expr.filled_congr :
    ∀ e : Expr, (∀ h ∈ e.collect .holes (), f.Agrees g h) → e.filled f = e.filled g
  | .all operands, h | .any operands, h => by
    rw [Expr.collect] at h
    rw [Expr.filled, Expr.filled, exprsFilled_congr operands h]
  | .compare left _ right, h | .like left right _, h => by
    rw [Expr.collect, List.forall_mem_append] at h
    rw [Expr.filled, Expr.filled, left.filled_congr h.1, right.filled_congr h.2]
  | .exists query _, h => by
    rw [Expr.collect] at h
    rw [Expr.filled, Expr.filled, query.filled_congr h]
  | .group inner, h | .isNull inner _, h => by
    rw [Expr.collect] at h
    rw [Expr.filled, Expr.filled, inner.filled_congr h]
  | .hole id, h => by
    rw [Expr.filled, Expr.filled]
    exact h _ List.mem_cons_self
  | .inList item [] _, h => by
    rw [Expr.collect] at h
    rw [Expr.filled, Expr.filled, item.filled_congr h, exprsFilled, exprsFilled]
  | .inList item (first :: rest) _, h => by
    rw [Expr.collect, List.forall_mem_append] at h
    rw [Expr.filled, Expr.filled, item.filled_congr h.1, exprsFilled_congr (first :: rest) h.2]
  | .column _ _, _ | .countAll, _ | .int _, _ | .text _, _ | .null, _ | .param _, _ => by
    rw [Expr.filled, Expr.filled]

theorem exprsFilled_congr : ∀ es : List Expr, (∀ h ∈ exprsCollect .holes () es, f.Agrees g h) →
    exprsFilled f es = exprsFilled g es
  | [], _ => by rw [exprsFilled, exprsFilled]
  | e :: es, h => by
    rw [exprsCollect, List.forall_mem_append] at h
    rw [exprsFilled, exprsFilled, e.filled_congr h.1, exprsFilled_congr es h.2]

theorem optionalFilled_congr : ∀ e : Option Expr, (∀ h ∈ optionalCollect .holes () e, f.Agrees g h) →
    optionalFilled f e = optionalFilled g e
  | none, _ => by rw [optionalFilled, optionalFilled]
  | some e, h => by
    rw [optionalCollect] at h
    rw [optionalFilled, optionalFilled, e.filled_congr h]

theorem Query.filled_congr :
    ∀ q : Query, (∀ h ∈ q.collect .holes (), f.Agrees g h) → q.filled f = q.filled g
  | ⟨distinct, projection, source, filter, groupBy, orderBy, offset, fetch⟩, h => by
    rw [Query.collect] at h
    simp only [List.forall_mem_append] at h
    obtain ⟨_, hprojection, hsource, hfilter, hgroups, horder, hoffset, hfetch⟩ := h
    rw [Query.filled, Query.filled, projectedFilled_congr projection hprojection,
      sourceFilled_congr source hsource, optionalFilled_congr filter hfilter,
      exprsFilled_congr groupBy hgroups, orderItemsFilled_congr orderBy horder,
      optionalFilled_congr offset hoffset, optionalFilled_congr fetch hfetch]

theorem projectedFilled_congr : ∀ ps : List Projected,
    (∀ h ∈ projectedCollect .holes () ps, f.Agrees g h) → projectedFilled f ps = projectedFilled g ps
  | [], _ => by rw [projectedFilled, projectedFilled]
  | ⟨expr, aliasName⟩ :: rest, h => by
    rw [projectedCollect, List.forall_mem_append] at h
    rw [projectedFilled, projectedFilled, expr.filled_congr h.1, projectedFilled_congr rest h.2]

theorem sourceFilled_congr : ∀ s : Option Source, (∀ h ∈ sourceCollect .holes () s, f.Agrees g h) →
    sourceFilled f s = sourceFilled g s
  | none, _ => by rw [sourceFilled, sourceFilled]
  | some ⟨base, joins⟩, h => by
    rw [sourceCollect] at h
    simp only [List.forall_mem_append] at h
    rw [sourceFilled, sourceFilled, base.filled_congr h.2.1, joinsFilled_congr joins [base] h.2.2]

theorem joinsFilled_congr : ∀ (js : List Join) (joined : List Factor),
    (∀ h ∈ joinsCollect .holes () joined js, f.Agrees g h) → joinsFilled f js = joinsFilled g js
  | [], _, _ => by rw [joinsFilled, joinsFilled]
  | ⟨kind, factor, condition⟩ :: rest, joined, h => by
    rw [joinsCollect] at h
    simp only [List.forall_mem_append] at h
    rw [joinsFilled, joinsFilled, factor.filled_congr h.1, condition.filled_congr h.2.1,
      joinsFilled_congr rest _ h.2.2]

theorem Factor.filled_congr :
    ∀ s : Factor, (∀ h ∈ s.collect .holes (), f.Agrees g h) → s.filled f = s.filled g
  | .table _ _, _ | .tableVar _ _, _ => by rw [Factor.filled, Factor.filled]
  | .derived query _, h => by
    rw [Factor.collect] at h
    rw [Factor.filled, Factor.filled, query.filled_congr h]

theorem orderItemsFilled_congr : ∀ items : List OrderItem,
    (∀ h ∈ orderItemsCollect .holes () items, f.Agrees g h) →
      orderItemsFilled f items = orderItemsFilled g items
  | [], _ => by rw [orderItemsFilled, orderItemsFilled]
  | .term ⟨expr, direction⟩ :: rest, h => by
    rw [orderItemsCollect, List.forall_mem_append] at h
    rw [orderItemsFilled, orderItemsFilled, expr.filled_congr h.1, orderItemsFilled_congr rest h.2]
  | .hole id :: rest, h => by
    rw [orderItemsCollect, List.forall_mem_append] at h
    have hfirst : f.order id = g.order id := h.1 _ List.mem_cons_self
    rw [orderItemsFilled, orderItemsFilled, hfirst, orderItemsFilled_congr rest h.2]

end

theorem orderTermsFilled_congr {terms : List OrderTerm}
    (h : ∀ opening ∈ (Fragment.order terms).collect .holes (), f.Agrees g opening) :
    terms.map (OrderTerm.filled f) = terms.map (OrderTerm.filled g) := by
  apply List.map_congr_left
  intro t ht
  have hexpr : t.expr.filled f = t.expr.filled g :=
    t.expr.filled_congr fun opening hopening => h opening (List.mem_flatMap.mpr ⟨t, ht, hopening⟩)
  rw [OrderTerm.filled, OrderTerm.filled, hexpr]

theorem assignmentsFilled_congr {list : List Assignment}
    (h : ∀ opening ∈ list.flatMap (Assignment.collect .holes ()), f.Agrees g opening) :
    assignmentsFilled f list = assignmentsFilled g list := by
  induction list with
  | nil => rfl
  | cons a list ih =>
    rw [List.flatMap_cons, List.forall_mem_append] at h
    cases a with
    | set column value =>
      rw [assignmentsFilled, assignmentsFilled, value.filled_congr h.1, ih h.2]
    | hole id =>
      have hfirst : f.assignments id = g.assignments id := h.1 _ List.mem_cons_self
      rw [assignmentsFilled, assignmentsFilled, hfirst, ih h.2]

theorem rowsFilled_congr {data : List (List Expr)}
    (h : ∀ opening ∈ data.flatMap (exprsCollect .holes ()), f.Agrees g opening) :
    data.map (exprsFilled f) = data.map (exprsFilled g) := by
  apply List.map_congr_left
  intro row hrow
  exact exprsFilled_congr row fun opening hopening =>
    h opening (List.mem_flatMap.mpr ⟨row, hrow, hopening⟩)

end Congruence

/-- The holes of a filled tree are those of what stands in its holes. -/
theorem HoleFiller.relates_holes (f : HoleFiller) :
    f.RelatesAll .holes .holes fun holes filled => filled = holes.flatMap f.holesAt where
  nil := rfl
  append := by
    rintro xs xs' _ _ rfl rfl
    exact List.flatMap_append.symm
  inside _ _ := rfl
  column _ _ _ := rfl
  param _ _ := rfl
  emptyList h := h
  tableVar _ := rfl
  ordering _ := rfl
  clause _ _ := rfl
  expr _ id := (List.flatMap_singleton f.holesAt (Place.expr, id)).symm
  order _ id := (List.flatMap_singleton f.holesAt (Place.order, id)).symm
  assignments _ id := (List.flatMap_singleton f.holesAt (Place.assignments, id)).symm
  rows _ id := (List.flatMap_singleton f.holesAt (Place.rows, id)).symm

section Keeping

mutual

theorem Expr.filled_keeping : ∀ e : Expr, e.filled .keeping = e
  | .all operands | .any operands => by rw [Expr.filled, exprsFilled_keeping]
  | .compare left _ right | .like left right _ => by
    rw [Expr.filled, left.filled_keeping, right.filled_keeping]
  | .exists query _ => by rw [Expr.filled, query.filled_keeping]
  | .group inner | .isNull inner _ => by rw [Expr.filled, inner.filled_keeping]
  | .inList item items _ => by rw [Expr.filled, item.filled_keeping, exprsFilled_keeping]
  | .hole _ | .column _ _ | .countAll | .int _ | .text _ | .null | .param _ => rfl

theorem exprsFilled_keeping : ∀ es : List Expr, exprsFilled .keeping es = es
  | [] => rfl
  | e :: es => by rw [exprsFilled, e.filled_keeping, exprsFilled_keeping es]

theorem optionalFilled_keeping : ∀ e : Option Expr, optionalFilled .keeping e = e
  | none => rfl
  | some e => by rw [optionalFilled, e.filled_keeping]

theorem Query.filled_keeping : ∀ q : Query, q.filled .keeping = q
  | ⟨_, projection, source, filter, groupBy, orderBy, offset, fetch⟩ => by
    rw [Query.filled, projectedFilled_keeping, sourceFilled_keeping, optionalFilled_keeping filter,
      exprsFilled_keeping, orderItemsFilled_keeping, optionalFilled_keeping offset,
      optionalFilled_keeping fetch]

theorem projectedFilled_keeping : ∀ ps : List Projected, projectedFilled .keeping ps = ps
  | [] => rfl
  | ⟨expr, _⟩ :: rest => by rw [projectedFilled, expr.filled_keeping, projectedFilled_keeping rest]

theorem sourceFilled_keeping : ∀ s : Option Source, sourceFilled .keeping s = s
  | none => rfl
  | some ⟨base, joins⟩ => by rw [sourceFilled, base.filled_keeping, joinsFilled_keeping]

theorem joinsFilled_keeping : ∀ js : List Join, joinsFilled .keeping js = js
  | [] => rfl
  | ⟨_, factor, condition⟩ :: rest => by
    rw [joinsFilled, factor.filled_keeping, condition.filled_keeping, joinsFilled_keeping rest]

theorem Factor.filled_keeping : ∀ s : Factor, s.filled .keeping = s
  | .table _ _ | .tableVar _ _ => rfl
  | .derived query _ => by rw [Factor.filled, query.filled_keeping]

theorem orderItemsFilled_keeping : ∀ items : List OrderItem, orderItemsFilled .keeping items = items
  | [] => rfl
  | .term ⟨expr, _⟩ :: rest => by
    rw [orderItemsFilled, expr.filled_keeping, orderItemsFilled_keeping rest]
  | .hole id :: rest => by
    rw [orderItemsFilled, orderItemsFilled_keeping rest]
    rfl

end

end Keeping

section Leaves

/-- The holes are among the leaves, unless one of these cannot be written. -/
def OpenIn (holes : List Opening) (leaves : List Leaf) : Prop :=
  (∀ fault, .broken fault ∉ leaves) → ∀ h ∈ holes, .hole h.1 h.2 ∈ leaves

theorem openIn_nil (leaves : List Leaf) : OpenIn [] leaves := fun _ => List.forall_mem_nil _

theorem OpenIn.append {holes others : List Opening} {leaves more : List Leaf}
    (h : OpenIn holes leaves) (h' : OpenIn others more) : OpenIn (holes ++ others) (leaves ++ more) := by
  intro hsound opening hopening
  have hfirst := h fun fault hfault => hsound fault (List.mem_append_left _ hfault)
  have hsecond := h' fun fault hfault => hsound fault (List.mem_append_right _ hfault)
  rcases List.mem_append.mp hopening with hleft | hright
  · exact List.mem_append_left _ (hfirst opening hleft)
  · exact List.mem_append_right _ (hsecond opening hright)

theorem openIn_hole (place : Place) (id : HoleId) : OpenIn [(place, id)] [.hole place id] := by
  intro _ opening hopening
  rw [List.mem_singleton.mp hopening]
  exact List.mem_singleton.mpr rfl

theorem openIn_broken (holes : List Opening) (fault : Fault) : OpenIn holes [.broken fault] :=
  fun hsound => absurd (List.mem_singleton.mpr rfl) (hsound fault)

theorem relates_openIn : HoleFiller.keeping.Relates .holes .leaves OpenIn where
  nil := openIn_nil []
  append := .append
  inside _ _ := rfl
  column _ _ _ := openIn_nil []
  param _ _ := openIn_nil _
  emptyList _ := openIn_broken _ .emptyList
  tableVar _ := openIn_nil []
  ordering _ := openIn_nil []
  clause _ _ := openIn_nil []
  expr _ id := openIn_hole .expr id
  order _ id := openIn_hole .order id

theorem Expr.openIn (e : Expr) : OpenIn (e.collect .holes ()) (e.collect .leaves ()) := by
  have hopen := e.related relates_openIn (k := ())
  rwa [e.filled_keeping] at hopen

theorem openIn_flatMap {α : Type} {holes : α → List Opening} {leaves : α → List Leaf}
    {items : List α} (h : ∀ a ∈ items, OpenIn (holes a) (leaves a)) :
    OpenIn (items.flatMap holes) (items.flatMap leaves) := by
  induction items with
  | nil => exact openIn_nil _
  | cons a items ih =>
    rw [List.forall_mem_cons] at h
    exact h.1.append (ih h.2)

/-- The holes of a fragment are among its leaves, unless one of these cannot be written. -/
theorem Fragment.openIn (fragment : Fragment) :
    OpenIn (fragment.collect .holes ()) fragment.leaves := by
  cases fragment with
  | expr e => exact e.openIn
  | order terms => exact openIn_flatMap fun t _ => t.expr.openIn
  | assignments list =>
    refine openIn_flatMap fun a _ => ?_
    cases a with
    | set column value => exact value.openIn
    | hole id => exact openIn_broken _ (.openAssignment id)
  | rows data =>
    refine openIn_flatMap fun es _ => ?_
    rw [exprsCollect_eq, exprsCollect_eq]
    exact openIn_flatMap fun e _ => e.openIn

end Leaves

end ShapeSql.Sql
