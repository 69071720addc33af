import Mathlib.Tactic.Simps.Basic
import ShapeSql.Proofs.Sql.Related

namespace ShapeSql.Sql

/-- The ORDER BY lists of a query: its own, which comes first, and those of every query within it. -/
@[simps param hole ordering]
def Collector.orderings : Collector Unit (List OrderItem) where
  ordering items := [items]

instance : Collector.orderings.Plain := ⟨fun _ _ _ => rfl, fun _ => rfl⟩

/-- The column that an item orders by, up to case: its row source and its name. -/
def OrderItem.column? : OrderItem → Option (String × String)
  | .term ⟨.column (some (.source aliasName)) name, _⟩ =>
    some (lowerAscii aliasName, lowerAscii name)
  | _ => none

/-- Everything is ordered by a column, and none is ordered by twice. -/
structure OrdersOnce (items : List OrderItem) : Prop where
  columns : ∀ item ∈ items, item.column?.isSome = true
  once : (items.filterMap OrderItem.column?).Nodup

theorem ordersOnce_nil : OrdersOnce [] := ⟨nofun, List.nodup_nil⟩

/-- None of the queries is ordered. -/
def Unsorted (lists : List (List OrderItem)) : Prop := ∀ items ∈ lists, items = []

namespace Unsorted

@[simp] theorem nil : Unsorted [] := nofun

theorem append {lists others : List (List OrderItem)} (h : Unsorted lists) (h' : Unsorted others) :
    Unsorted (lists ++ others) := List.forall_mem_append.mpr ⟨h, h'⟩

end Unsorted

namespace Query

theorem orderBy_mem_orderings (q : Query) : q.orderBy ∈ q.collect .orderings () := by
  obtain ⟨distinct, projection, source, filter, groupBy, orderBy, offset, fetch⟩ := q
  rw [Query.collect]
  exact List.mem_cons_self

section Each

variable {P : List OrderItem → Prop}

theorem forall_orderings_reading {source : Source} (hnil : P []) :
    (∀ items ∈ (reading source).collect .orderings (), P items) ↔
      ∀ items ∈ sourceCollect .orderings () (some source), P items := by
  simp [collect_reading, hnil]

theorem forall_orderings_project {q : Query} {e : Expr} {aliasName : Option String} :
    (∀ items ∈ (q.project e aliasName).collect .orderings (), P items) ↔
      (∀ items ∈ q.collect .orderings (), P items) ∧ ∀ items ∈ e.collect .orderings (), P items := by
  simp only [mem_collect_project, or_imp, forall_and]

theorem forall_orderings_foldl_restrict {α : Type} (condition : α → Expr) (conditions : List α)
    (q : Query) :
    (∀ items ∈ (conditions.foldl (fun q a => q.restrict (condition a)) q).collect .orderings (),
      P items) ↔
      (∀ items ∈ q.collect .orderings (), P items) ∧
        ∀ a ∈ conditions, ∀ items ∈ (condition a).collect .orderings (), P items := by
  simp only [mem_collect_restrictAll, or_imp, forall_and]
  exact and_congr_right fun _ => ⟨fun h a ha items hitems => h items ⟨a, ha, hitems⟩,
    fun h items ⟨a, ha, hitems⟩ => h a ha items hitems⟩

/-- Sorting a query by plain columns, and cutting it to a page of plain bounds, adds its own list. -/
theorem forall_orderings_ordered {q : Query} {orderBy : List OrderItem} {offset fetch : Option Expr}
    (hterms : orderItemsCollect .orderings () orderBy = [])
    (hoffset : optionalCollect .orderings () offset = [])
    (hfetch : optionalCollect .orderings () fetch = [])
    (h : ∀ items ∈ q.collect .orderings (), P items) (hown : P orderBy) :
    ∀ items ∈ ({ q with orderBy, offset, fetch } : Query).collect .orderings (), P items := by
  intro items hitems
  rcases mem_collect_page q orderBy offset fetch hitems with hnew | hold | hother
  · rw [List.mem_singleton.mp hnew]
    exact hown
  · exact h items hold
  · simp [hterms, hoffset, hfetch] at hother

end Each

theorem unsorted_reading {source : Source} :
    Unsorted ((reading source).collect .orderings ()) ↔
      Unsorted (sourceCollect .orderings () (some source)) :=
  forall_orderings_reading rfl

theorem unsorted_project {q : Query} {e : Expr} {aliasName : Option String} :
    Unsorted ((q.project e aliasName).collect .orderings ()) ↔
      Unsorted (q.collect .orderings ()) ∧ Unsorted (e.collect .orderings ()) :=
  forall_orderings_project

end Query

section Filled

theorem orderItemsFilled_append (f : HoleFiller) (xs ys : List OrderItem) :
    orderItemsFilled f (xs ++ ys) = orderItemsFilled f xs ++ orderItemsFilled f ys := by
  induction xs with
  | nil => rfl
  | cons x xs ih =>
    cases x with
    | term t =>
      obtain ⟨expr, direction⟩ := t
      rw [List.cons_append, orderItemsFilled, orderItemsFilled, ih, List.cons_append]
    | hole id => rw [List.cons_append, orderItemsFilled, orderItemsFilled, ih, List.append_assoc]

/-- The queries that stand in the holes are not ordered. -/
structure HoleFiller.Unsorted (f : HoleFiller) : Prop where
  expr : ∀ id, Sql.Unsorted ((f.expr id).collect .orderings ())
  order : ∀ id, Sql.Unsorted (orderItemsCollect .orderings () (f.order id))

/-- The lists after filling are those before, filled, and lists of unordered queries. -/
structure FilledAs (f : HoleFiller) (before after : List (List OrderItem)) : Prop where
  kept : ∀ items ∈ before, orderItemsFilled f items ∈ after
  given : ∀ items ∈ after, items = [] ∨ ∃ open' ∈ before, items = orderItemsFilled f open'

variable {f : HoleFiller}

theorem FilledAs.of_unsorted {lists : List (List OrderItem)} (h : Unsorted lists) :
    FilledAs f [] lists := ⟨nofun, fun items hitems => Or.inl (h items hitems)⟩

theorem FilledAs.nil : FilledAs f [] [] := .of_unsorted .nil

theorem FilledAs.append {before after before' after' : List (List OrderItem)}
    (h : FilledAs f before after) (h' : FilledAs f before' after') :
    FilledAs f (before ++ before') (after ++ after') := by
  refine ⟨List.forall_mem_append.mpr ⟨fun items hitems => List.mem_append_left _ (h.kept items hitems),
    fun items hitems => List.mem_append_right _ (h'.kept items hitems)⟩,
    List.forall_mem_append.mpr ⟨fun items hitems => ?_, fun items hitems => ?_⟩⟩
  · obtain hnil | ⟨list, hlist, heq⟩ := h.given items hitems
    · exact Or.inl hnil
    · exact Or.inr ⟨list, List.mem_append_left _ hlist, heq⟩
  · obtain hnil | ⟨list, hlist, heq⟩ := h'.given items hitems
    · exact Or.inl hnil
    · exact Or.inr ⟨list, List.mem_append_right _ hlist, heq⟩

theorem FilledAs.single (items : List OrderItem) : FilledAs f [items] [orderItemsFilled f items] :=
  ⟨List.forall_mem_singleton.mpr (List.mem_singleton.mpr rfl),
    List.forall_mem_singleton.mpr (Or.inr ⟨items, List.mem_singleton.mpr rfl, rfl⟩)⟩

theorem HoleFiller.Unsorted.relates (hf : f.Unsorted) :
    f.Relates .orderings .orderings (FilledAs f) where
  nil := .nil
  append := .append
  inside _ _ := rfl
  column _ _ _ := .nil
  param _ _ := .nil
  emptyList h := h
  tableVar _ := .nil
  ordering items := .single items
  clause _ _ := .nil
  expr _ id := .of_unsorted (hf.expr id)
  order _ id := .of_unsorted (hf.order id)

end Filled

end ShapeSql.Sql
