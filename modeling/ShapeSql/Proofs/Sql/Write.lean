import ShapeSql.Proofs.Except
import ShapeSql.Proofs.Sql.Leaf
import ShapeSql.Sql.Render

/-!
When a batch can be written out. A printer that writes every leaf of a tree writes the tree. The
printer of a substitution writes a hole as soon as the fragment bound to it is of the right kind and
has holes of smaller numbers only, for then expanding holes inside fragments ends.
-/

namespace ShapeSql.Sql

namespace HolePrinter

/-- Whether a leaf can be written. -/
def Writes (holes : HolePrinter) : Leaf → Prop
  | .param _ => True
  | .hole .expr id => ∃ w, holes.expr id = .ok w
  | .hole .order id => ∃ w, holes.order id = .ok w
  | .hole .assignments id => ∃ w, holes.assignments id = .ok w
  | .hole .rows id => ∃ w, holes.rows id = .ok w
  | .broken _ => False

/-- Whether all of the leaves can be written. -/
def WritesAll (holes : HolePrinter) (leaves : List Leaf) : Prop := ∀ l ∈ leaves, holes.Writes l

variable {holes : HolePrinter} {ls ms : List Leaf}

theorem WritesAll.left (h : holes.WritesAll (ls ++ ms)) : holes.WritesAll ls :=
  fun l hl => h l (List.mem_append_left _ hl)

theorem WritesAll.right (h : holes.WritesAll (ls ++ ms)) : holes.WritesAll ms :=
  fun l hl => h l (List.mem_append_right _ hl)

end HolePrinter

section Trees

variable (holes : HolePrinter)

-- The induction is over the tree: the leaves of a node are those of its parts one after the other, so
-- each part is written, and so is the node. Only a broken leaf or a hole could stand in the way.
mutual

theorem Expr.written_ok :
    ∀ e : Expr, holes.WritesAll (e.collect .leaves ()) → ∃ w, e.written holes = .ok w
  | .all operands, h => by
    obtain ⟨items, hitems⟩ := exprsWritten_ok operands h
    rw [Expr.written, hitems]
    exact ⟨_, rfl⟩
  | .any operands, h => by
    obtain ⟨items, hitems⟩ := exprsWritten_ok operands h
    rw [Expr.written, hitems]
    exact ⟨_, rfl⟩
  | .compare left op right, h => by
    obtain ⟨l, hl⟩ := Expr.written_ok left h.left
    obtain ⟨r, hr⟩ := Expr.written_ok right h.right
    rw [Expr.written, hl, hr]
    exact ⟨_, rfl⟩
  | .exists query negated, h => by
    obtain ⟨q, hq⟩ := Query.written_ok query h
    rw [Expr.written, hq]
    exact ⟨_, rfl⟩
  | .group inner, h => by
    obtain ⟨e, he⟩ := Expr.written_ok inner h
    rw [Expr.written, he]
    exact ⟨_, rfl⟩
  | .hole id, h => by
    rw [Expr.written]
    exact h (.hole .expr id) (List.mem_singleton.mpr rfl)
  | .inList _ [] _, h => (h (.broken .emptyList) (List.mem_singleton.mpr rfl)).elim
  | .inList item (first :: rest) negated, h => by
    obtain ⟨e, he⟩ := Expr.written_ok item h.left
    obtain ⟨head, hhead⟩ := Expr.written_ok first h.right.left
    obtain ⟨tail, htail⟩ := exprsWritten_ok rest h.right.right
    rw [Expr.written, he, hhead, htail]
    exact ⟨_, rfl⟩
  | .isNull item negated, h => by
    obtain ⟨e, he⟩ := Expr.written_ok item h
    rw [Expr.written, he]
    exact ⟨_, rfl⟩
  | .like item pattern negated, h => by
    obtain ⟨e, he⟩ := Expr.written_ok item h.left
    obtain ⟨p, hp⟩ := Expr.written_ok pattern h.right
    rw [Expr.written, he, hp]
    exact ⟨_, rfl⟩
  | .column _ _, _ | .countAll, _ | .int _, _ | .text _, _ | .null, _ | .param _, _ => by
    rw [Expr.written]
    exact ⟨_, rfl⟩

theorem exprsWritten_ok :
    ∀ es : List Expr, holes.WritesAll (exprsCollect .leaves () es) → ∃ w, exprsWritten holes es = .ok w
  | [], _ => ⟨[], rfl⟩
  | e :: es, h => by
    obtain ⟨first, hfirst⟩ := Expr.written_ok e h.left
    obtain ⟨rest, hrest⟩ := exprsWritten_ok es h.right
    rw [exprsWritten, hfirst, hrest]
    exact ⟨_, rfl⟩

theorem optionalWritten_ok :
    ∀ e : Option Expr, holes.WritesAll (optionalCollect .leaves () e) →
      ∃ w, optionalWritten holes e = .ok w
  | none, _ => ⟨none, rfl⟩
  | some e, h => by
    obtain ⟨w, hw⟩ := Expr.written_ok e h
    rw [optionalWritten, hw]
    exact ⟨_, rfl⟩

theorem Query.written_ok :
    ∀ q : Query, holes.WritesAll (q.collect .leaves ()) → ∃ w, q.written holes = .ok w
  | ⟨distinct, projection, source, filter, groupBy, orderBy, offset, fetch⟩, h => by
    have hparts := h.right
    obtain ⟨items, hitems⟩ := projectedWritten_ok projection hparts.left
    obtain ⟨from', hfrom⟩ := sourceWritten_ok source hparts.right.left
    obtain ⟨where', hwhere⟩ := optionalWritten_ok filter hparts.right.right.left
    obtain ⟨groups, hgroups⟩ := exprsWritten_ok groupBy hparts.right.right.right.left
    obtain ⟨terms, hterms⟩ := orderItemsWritten_ok orderBy hparts.right.right.right.right.left
    obtain ⟨skipped, hskipped⟩ := optionalWritten_ok offset hparts.right.right.right.right.right.left
    obtain ⟨taken, htaken⟩ := optionalWritten_ok fetch hparts.right.right.right.right.right.right
    rw [Query.written, hitems, hfrom, hwhere, hgroups, hterms, hskipped, htaken]
    exact ⟨_, rfl⟩

theorem projectedWritten_ok : ∀ items : List Projected,
    holes.WritesAll (projectedCollect .leaves () items) → ∃ w, projectedWritten holes items = .ok w
  | [], _ => ⟨[], rfl⟩
  | ⟨expr, aliasName⟩ :: rest, h => by
    obtain ⟨e, he⟩ := Expr.written_ok expr h.left
    obtain ⟨others, hothers⟩ := projectedWritten_ok rest h.right
    rw [projectedWritten, he, hothers]
    exact ⟨_, rfl⟩

theorem sourceWritten_ok : ∀ source : Option Source,
    holes.WritesAll (sourceCollect .leaves () source) → ∃ w, sourceWritten holes source = .ok w
  | none, _ => ⟨none, rfl⟩
  | some ⟨base, joins⟩, h => by
    obtain ⟨b, hb⟩ := Factor.written_ok base h.right.left
    obtain ⟨js, hjs⟩ := joinsWritten_ok joins [base] h.right.right
    rw [sourceWritten, hb, hjs]
    exact ⟨_, rfl⟩

theorem joinsWritten_ok : ∀ (joins : List Join) (joined : List Factor),
    holes.WritesAll (joinsCollect .leaves () joined joins) → ∃ w, joinsWritten holes joins = .ok w
  | [], _, _ => ⟨[], rfl⟩
  | ⟨kind, factor, condition⟩ :: rest, joined, h => by
    obtain ⟨f, hf⟩ := Factor.written_ok factor h.left
    obtain ⟨c, hc⟩ := Expr.written_ok condition h.right.left
    obtain ⟨others, hothers⟩ := joinsWritten_ok rest _ h.right.right
    rw [joinsWritten, hf, hc, hothers]
    exact ⟨_, rfl⟩

theorem Factor.written_ok :
    ∀ f : Factor, holes.WritesAll (f.collect .leaves ()) → ∃ w, f.written holes = .ok w
  | .table _ _, _ | .tableVar _ _, _ => by
    rw [Factor.written]
    exact ⟨_, rfl⟩
  | .derived query aliasName, h => by
    obtain ⟨q, hq⟩ := Query.written_ok query h
    rw [Factor.written, hq]
    exact ⟨_, rfl⟩

theorem orderItemsWritten_ok : ∀ items : List OrderItem,
    holes.WritesAll (orderItemsCollect .leaves () items) → ∃ w, orderItemsWritten holes items = .ok w
  | [], _ => ⟨[], rfl⟩
  | .term ⟨expr, direction⟩ :: rest, h => by
    obtain ⟨e, he⟩ := Expr.written_ok expr h.left
    obtain ⟨others, hothers⟩ := orderItemsWritten_ok rest h.right
    rw [orderItemsWritten, he, hothers]
    exact ⟨_, rfl⟩
  | .hole id :: rest, h => by
    obtain ⟨terms, hterms⟩ := h (.hole .order id) List.mem_cons_self
    obtain ⟨others, hothers⟩ :=
      orderItemsWritten_ok rest fun l hl => h l (List.mem_cons_of_mem _ hl)
    rw [orderItemsWritten, hterms, hothers]
    exact ⟨_, rfl⟩

end

variable {holes}

theorem HolePrinter.WritesAll.of_mem_flatMap {α : Type} {f : α → List Leaf} {items : List α} {a : α}
    (h : holes.WritesAll (items.flatMap f)) (ha : a ∈ items) : holes.WritesAll (f a) :=
  fun l hl => h l (List.mem_flatMap.mpr ⟨a, ha, hl⟩)

variable (holes)

theorem orderTermsWritten_ok (terms : List OrderTerm)
    (h : holes.WritesAll (terms.flatMap fun t => t.expr.collect .leaves ())) :
    ∃ w, orderTermsWritten holes terms = .ok w := by
  have hterm : ∀ t ∈ terms, ∃ w, (do
      let e ← t.expr.written holes
      return e ++ Direction.written t.direction : Written) = .ok w := by
    intro t ht
    obtain ⟨e, he⟩ := Expr.written_ok holes t.expr (h.of_mem_flatMap ht)
    rw [he]
    exact ⟨_, rfl⟩
  obtain ⟨w, hw, _⟩ := mapM_ok terms hterm
  exact ⟨w, hw⟩

theorem rowsWritten_ok (rows : List (List Expr))
    (h : holes.WritesAll (rows.flatMap (exprsCollect .leaves ()))) :
    ∃ w, rowsWritten holes rows = .ok w := by
  obtain ⟨w, hw, _⟩ := mapM_ok rows fun row hrow =>
    exprsWritten_ok holes row (h.of_mem_flatMap hrow)
  exact ⟨w, hw⟩

theorem assignmentWritten_ok (a : Assignment) (h : holes.WritesAll a.boundLeaves) :
    ∃ w, assignmentWritten holes a = .ok w := by
  cases a with
  | set column value =>
    obtain ⟨w, hw⟩ := Expr.written_ok holes value h
    rw [assignmentWritten, hw]
    exact ⟨_, rfl⟩
  | hole id => exact (h (.broken (.openAssignment id)) (List.mem_singleton.mpr rfl)).elim

/-- Some assignment is left once the holes are filled. -/
def HolePrinter.Assigns : Assignment → Prop
  | .set _ _ => True
  | .hole id => ∃ first rest, holes.assignments id = .ok (first :: rest)

theorem assignmentsWritten_ok (list : List Assignment)
    (h : holes.WritesAll (list.flatMap (Assignment.collect .leaves ()))) :
    ∃ ws, assignmentsWritten holes list = .ok ws ∧ ((∃ a ∈ list, holes.Assigns a) → ws ≠ []) := by
  induction list with
  | nil => exact ⟨[], rfl, fun ⟨_, ha, _⟩ => by cases ha⟩
  | cons a list ih =>
    rw [List.flatMap_cons] at h
    obtain ⟨others, hothers, hsome⟩ := ih h.right
    cases a with
    | set column value =>
      obtain ⟨first, hfirst⟩ := assignmentWritten_ok holes (.set column value) h.left
      refine ⟨first :: others, ?_, fun _ => List.cons_ne_nil _ _⟩
      rw [assignmentsWritten, hfirst, hothers]
      · rfl
      · exact fun _ he => by cases he
    | hole id =>
      obtain ⟨bound, hbound⟩ := h.left (.hole .assignments id) (List.mem_singleton.mpr rfl)
      refine ⟨bound ++ others, ?_, ?_⟩
      · rw [assignmentsWritten, hbound, hothers]
        rfl
      · rintro ⟨a, ha, hassigns⟩
        rcases List.mem_cons.mp ha with rfl | hrest
        · obtain ⟨first, rest, hfirst⟩ := hassigns
          rw [hbound] at hfirst
          cases hfirst
          exact List.cons_ne_nil _ _
        · exact fun hnil => hsome ⟨a, hrest, hassigns⟩ (List.append_eq_nil_iff.mp hnil).2

theorem insertWritten_ok (target : InsertTarget) (columns : List String) (source : InsertSource)
    (h : holes.WritesAll (source.collect .leaves ())) :
    ∃ w, insertWritten holes target columns source = .ok w := by
  unfold insertWritten
  split
  · exact ⟨_, rfl⟩
  · cases source with
    | rows data =>
      obtain ⟨rows, hrows⟩ := rowsWritten_ok holes data h
      simp only [hrows]
      exact ⟨_, rfl⟩
    | hole id =>
      obtain ⟨rows, hrows⟩ := h (.hole .rows id) (List.mem_singleton.mpr rfl)
      simp only [hrows]
      exact ⟨_, rfl⟩
    | query q =>
      obtain ⟨w, hw⟩ := Query.written_ok holes q h
      simp only [hw]
      exact ⟨_, rfl⟩

theorem mergeInsertWritten_ok (insert : Option MergeInsert)
    (h : holes.WritesAll (insert.elim [] (MergeInsert.collect .leaves ()))) :
    ∃ w, mergeInsertWritten holes insert = .ok w := by
  cases insert with
  | none => exact ⟨_, rfl⟩
  | some insert =>
    obtain ⟨values, hvalues⟩ := exprsWritten_ok holes insert.values h
    simp only [mergeInsertWritten, hvalues]
    split
    · exact ⟨_, rfl⟩
    · exact ⟨_, rfl⟩

theorem outputWritten_ok (output : Option OutputInto)
    (h : holes.WritesAll (output.elim [] (OutputInto.collect .leaves ()))) :
    ∃ w, outputWritten holes output = .ok w := by
  cases output with
  | none => exact ⟨_, rfl⟩
  | some output =>
    obtain ⟨exprs, hexprs⟩ := exprsWritten_ok holes output.exprs h
    rw [outputWritten, hexprs]
    exact ⟨_, rfl⟩

theorem mergeWritten_ok (m : Merge) (h : holes.WritesAll (m.collect .leaves ())) :
    ∃ w, mergeWritten holes m = .ok w := by
  obtain ⟨target, htarget⟩ := Factor.written_ok holes m.target h.left
  obtain ⟨source, hsource⟩ := Factor.written_ok holes m.source h.right.left
  obtain ⟨condition, hcondition⟩ := Expr.written_ok holes m.condition h.right.right.left
  obtain ⟨assignments, hassignments, _⟩ :=
    assignmentsWritten_ok holes m.matchedUpdate h.right.right.right.left
  obtain ⟨insert, hinsert⟩ :=
    mergeInsertWritten_ok holes m.notMatchedInsert h.right.right.right.right.left
  obtain ⟨output, houtput⟩ := outputWritten_ok holes m.output h.right.right.right.right.right
  rw [mergeWritten, htarget, hsource, hcondition, hassignments, hinsert, houtput]
  exact ⟨_, rfl⟩

theorem updateWritten_ok (u : Update) (h : holes.WritesAll (u.collect .leaves ()))
    (hassigns : ∃ a ∈ u.assignments, holes.Assigns a) : ∃ w, updateWritten holes u = .ok w := by
  obtain ⟨assignments, hassignments, hsome⟩ := assignmentsWritten_ok holes u.assignments h.left
  obtain ⟨source, hsource⟩ := sourceWritten_ok holes u.source h.right.left
  obtain ⟨filter, hfilter⟩ := optionalWritten_ok holes u.filter h.right.right
  have hnonempty : ¬assignments.isEmpty = true := by
    rw [List.isEmpty_iff]
    exact hsome hassigns
  rw [updateWritten, hassignments, hsource, hfilter]
  simp only [Except.bind, bind, if_neg hnonempty]
  exact ⟨_, rfl⟩

/-- An update has an assignment left; any other statement has none to ask for. -/
def HolePrinter.AssignsIn : Statement → Prop
  | .update u => ∃ a ∈ u.assignments, holes.Assigns a
  | _ => True

theorem Statement.written_ok (s : Statement) (h : holes.WritesAll (s.collect .leaves ()))
    (hassigns : holes.AssignsIn s) : ∃ w, s.written holes = .ok w := by
  cases s with
  | declare name columns => exact ⟨_, rfl⟩
  | delete source filter =>
    obtain ⟨s, hs⟩ := Factor.written_ok holes source h.left
    obtain ⟨f, hf⟩ := optionalWritten_ok holes filter h.right
    rw [Statement.written, hs, hf]
    exact ⟨_, rfl⟩
  | insert target columns source => exact insertWritten_ok holes target columns source h.right
  | merge m => exact mergeWritten_ok holes m h
  | query q => exact Query.written_ok holes q h
  | update u => exact updateWritten_ok holes u h hassigns

end Trees

namespace Substitution

/-- A leaf of the fragment in the hole `outer`: holes are of smaller number, and bound for their
place. -/
def Below (subs : Substitution) (outer : HoleId) : Leaf → Prop
  | .param _ => True
  | .hole place inner =>
    inner.index < outer.index ∧ ∃ fragment, subs.find? inner = some fragment ∧ fragment.place = place
  | .broken _ => False

/-- Fragments have holes of smaller numbers only, and there are no more numbers than fragments. -/
structure Layered (subs : Substitution) : Prop where
  below : ∀ id fragment, subs.find? id = some fragment → ∀ l ∈ fragment.leaves, subs.Below id l
  size : ∀ id fragment, subs.find? id = some fragment → id.index ≤ subs.size

end Substitution

namespace HolePrinter

/-- A hole is written if all leaves of the fragment bound to it are written by the inner printer. -/
theorem filling_writes {subs : Substitution} {inner : HolePrinter} {id : HoleId}
    {fragment : Fragment} (hfound : subs.find? id = some fragment)
    (h : inner.WritesAll fragment.leaves) :
    (filling subs inner).Writes (.hole fragment.place id) := by
  cases fragment with
  | expr e =>
    obtain ⟨w, hw⟩ := Expr.written_ok inner e h
    exact ⟨w, by simp only [filling, hfound, hw]⟩
  | order terms =>
    obtain ⟨w, hw⟩ := orderTermsWritten_ok inner terms h
    exact ⟨w, by simp only [filling, hfound, hw]⟩
  | assignments list =>
    obtain ⟨w, hw, _⟩ := mapM_ok list fun a ha =>
      assignmentWritten_ok inner a (h.of_mem_flatMap ha)
    exact ⟨w, by simp only [filling, hfound, hw]⟩
  | rows data =>
    obtain ⟨w, hw⟩ := rowsWritten_ok inner data h
    exact ⟨w, by simp only [filling, hfound, hw]⟩

/-- As many levels as the number of a hole suffice to write the fragment bound to it. -/
theorem nested_writesAll {subs : Substitution} (h : subs.Layered) (depth : Nat) :
    ∀ id fragment, subs.find? id = some fragment → id.index ≤ depth →
      ∃ inner, nested subs depth = filling subs inner ∧ inner.WritesAll fragment.leaves := by
  induction depth with
  | zero =>
    intro id fragment hfound hdepth
    refine ⟨refusing .circular, rfl, ?_⟩
    intro l hl
    have hbelow := h.below id fragment hfound l hl
    cases l with
    | param name => trivial
    | hole place inner =>
      have := hbelow.1
      omega
    | broken fault => exact hbelow.elim
  | succ depth ih =>
    intro id fragment hfound hdepth
    refine ⟨nested subs depth, rfl, ?_⟩
    intro l hl
    have hbelow := h.below id fragment hfound l hl
    cases l with
    | param name => trivial
    | hole place inner =>
      obtain ⟨hlt, other, hother, rfl⟩ := hbelow
      obtain ⟨deeper, hdeeper, hwrites⟩ := ih inner other hother (by omega)
      rw [hdeeper]
      exact filling_writes hother hwrites
    | broken fault => exact hbelow.elim

theorem ofSubstitution_writes {subs : Substitution} (h : subs.Layered) {id : HoleId}
    {fragment : Fragment} (hfound : subs.find? id = some fragment) :
    (ofSubstitution subs).Writes (.hole fragment.place id) := by
  obtain ⟨inner, hinner, hwrites⟩ :=
    nested_writesAll h subs.size id fragment hfound (h.size id fragment hfound)
  rw [ofSubstitution, hinner]
  exact filling_writes hfound hwrites

/-- A hole bound to at least one assignment is written as at least one. -/
theorem ofSubstitution_assigns {subs : Substitution} (h : subs.Layered) {id : HoleId}
    {first : Assignment} {rest : List Assignment}
    (hfound : subs.find? id = some (.assignments (first :: rest))) :
    (ofSubstitution subs).Assigns (.hole id) := by
  obtain ⟨inner, hinner, hwrites⟩ :=
    nested_writesAll h subs.size id _ hfound (h.size id _ hfound)
  obtain ⟨ws, hws, hlength⟩ := mapM_ok (first :: rest) fun a ha =>
    assignmentWritten_ok inner a (HolePrinter.WritesAll.of_mem_flatMap hwrites ha)
  cases ws with
  | nil => simp at hlength
  | cons w ws =>
    refine ⟨w, ws, ?_⟩
    simp only [ofSubstitution, hinner, filling, hfound, hws]

end HolePrinter

/-- A batch whose holes are bound to fragments of the right kind is written out, given that every
update keeps an assignment. -/
theorem Batch.render_ok (batch : Batch) {subs : Substitution}
    (hleaves : (HolePrinter.ofSubstitution subs).WritesAll batch.leaves)
    (hassigns : ∀ s ∈ batch, (HolePrinter.ofSubstitution subs).AssignsIn s) :
    ∃ sql, batch.render subs = .ok sql := by
  obtain ⟨statements, hstatements, _⟩ := mapM_ok batch fun s hs =>
    Statement.written_ok (.ofSubstitution subs) s (hleaves.of_mem_flatMap hs) (hassigns s hs)
  rw [Batch.render, Batch.written, hstatements]
  exact ⟨_, rfl⟩

end ShapeSql.Sql
