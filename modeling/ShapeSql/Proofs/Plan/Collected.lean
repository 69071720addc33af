import ShapeSql.Plan.Write
import ShapeSql.Proofs.Sql.Collector

namespace ShapeSql

open Sql

namespace Planner

variable {κ β : Type} {g : Collector κ β} {k : κ} {x : β}

theorem mem_collect_probe (source : Source) :
    x ∈ (probe source).collect g k ↔ x ∈ g.ordering [] ∨ x ∈ sourceCollect g k (some source) := by
  rw [probe, Query.mem_collect_project, Query.collect_reading, List.mem_append, Expr.collect]
  exact or_iff_left List.not_mem_nil

@[simp] theorem collect_factor (p : Planner) (r : Relation) : (p.factor r).collect g k = [] := by
  rw [factor, Factor.collect]

theorem collect_keyTerms [g.Plain] (p : Planner) (aliasName : String) :
    orderItemsCollect g k (p.keyTerms aliasName) = [] := by
  rw [keyTerms, rootKey]
  induction p.table.keyColumns with
  | nil => rfl
  | cons column rest ih => simpa using ih

@[simp] theorem collect_pairsEq [g.Plain] (p : Planner) (left right : String) (pairs : List JoinPair) :
    (p.pairsEq left right pairs).collect g k = [] :=
  Expr.collect_allOf_map (fun _ => by simp) pairs

@[simp] theorem collect_keyEq [g.Plain] (left right : String) (key : List Column) :
    (keyEq left right key).collect g k = [] :=
  Expr.collect_allOf_map (fun _ => by simp) key

@[simp] theorem collect_joinCondition [g.Plain] (p : Planner) (v : Tree.Visit Relation) :
    (p.joinCondition v).collect g k = [] := p.collect_pairsEq _ _ _

/-- Relations that are joined by their keys add nothing. -/
theorem collect_joined [g.Plain] (p : Planner) (kind : JoinKind) (visits : List (Tree.Visit Relation))
    (source : Source) :
    sourceCollect g k (some (visits.foldl (fun source v =>
      source.join kind (p.factor v.label) (p.joinCondition v)) source)) =
      sourceCollect g k (some source) := by
  induction visits generalizing source with
  | nil => rfl
  | cons v visits ih => rw [List.foldl_cons, ih, Source.collect_join]; simp

@[simp] theorem collect_joinAll [g.Plain] (p : Planner) (kind : JoinKind)
    (accepts : Tree.Visit Relation → Bool) (source : Source) (visits : List (Tree.Visit Relation)) :
    sourceCollect g k (some (p.joinAll kind accepts source visits)) = sourceCollect g k (some source) :=
  p.collect_joined kind _ source

@[simp] theorem collect_fromClause [g.Plain] (p : Planner) (relations : Relations)
    (accepts : Tree.Visit Relation → Bool) :
    sourceCollect g k (some (p.fromClause relations accepts)) = [] := by
  rw [fromClause, collect_joinAll, Source.collect_of, collect_factor]

theorem mem_collect_projectAll [g.Plain] (p : Planner) (query : Query) (relations : Relations) :
    x ∈ (p.projectAll query relations).collect g k ↔ x ∈ query.collect g k := by
  unfold projectAll
  induction relations.all generalizing query with
  | nil => rfl
  | cons r rest ih =>
    rw [List.foldl_cons, ih, Query.mem_collect_projectAll _ (fun _ _ => by simp)]

theorem mem_collect_projectKey [g.Plain] (p : Planner) (query : Query) (aliasName : String) :
    x ∈ (p.projectKey query aliasName).collect g k ↔ x ∈ query.collect g k :=
  Query.mem_collect_projectAll _ (fun _ _ => by simp) _ query

end Planner

section Unread

variable {β : Type} {g : Collector Unit β} {x : β}

namespace Planner

theorem mem_collect_relatedExists {source : Source} {tie filters : Expr}
    (h : x ∈ (relatedExists source tie filters).collect g ()) :
    x ∈ g.ordering [] ∨ x ∈ sourceCollect g () (some source) ∨ x ∈ tie.collect g () ∨
      x ∈ filters.collect g () := by
  rw [relatedExists, Expr.collect] at h
  split at h
  · rw [Query.mem_collect_restrict, mem_collect_probe] at h
    tauto
  · rw [Query.mem_collect_restrict, Query.mem_collect_restrict, mem_collect_probe] at h
    tauto

theorem mem_collect_existsAlong [g.Plain] (p : Planner) {relations : Relations} {id : Nat}
    {condition : Expr} (h : x ∈ (p.existsAlong relations id condition).collect g ()) :
    x ∈ g.ordering [] ∨ x ∈ condition.collect g () := by
  unfold existsAlong at h
  simp only at h
  split at h
  · exact Or.inr h
  · rw [Expr.collect, Query.mem_collect_restrict, Query.mem_collect_restrict, mem_collect_probe,
      collect_joined, Source.collect_of, collect_factor, collect_joinCondition] at h
    simpa using h

/-- What is in the window is in the query that it is cut from or in one of the filters. -/
theorem mem_collect_windowFilters [g.Plain] (p : Planner) {relations : Relations}
    {filters : List Filter} {query : Query}
    (h : x ∈ (filters.foldl (p.windowFilter relations) query).collect g ()) :
    x ∈ g.ordering [] ∨ x ∈ query.collect g () ∨ ∃ filter ∈ filters, x ∈ filter.expr.collect g () := by
  induction filters generalizing query with
  | nil => exact Or.inr (Or.inl h)
  | cons filter rest ih =>
    rcases ih h with hordering | hquery | ⟨other, hother, hx⟩
    · exact Or.inl hordering
    · have hcondition : ∀ e : Expr, x ∈ (query.restrict e).collect g () →
          (x ∈ e.collect g () → x ∈ g.ordering [] ∨ x ∈ filter.expr.collect g ()) →
            x ∈ g.ordering [] ∨ x ∈ query.collect g () ∨
              ∃ f ∈ filter :: rest, x ∈ f.expr.collect g () := by
        intro e hmem hin
        rcases (Query.mem_collect_restrict query e).mp hmem with hold | hnew
        · exact Or.inr (Or.inl hold)
        · exact (hin hnew).imp_right fun hx => Or.inr ⟨filter, List.mem_cons_self, hx⟩
      unfold windowFilter at hquery
      split at hquery
      · split at hquery
        · exact hcondition _ hquery Or.inr
        · exact hcondition _ hquery p.mem_collect_existsAlong
      · exact hcondition _ hquery Or.inr
    · exact Or.inr (Or.inr ⟨other, List.mem_cons_of_mem _ hother, hx⟩)

/-- An existence test under a condition with nothing in it. -/
theorem mem_collect_tied {source : Source} {tie : Expr} {negated : Bool} (htie : tie.collect g () = [])
    (h : x ∈ (Expr.exists ((probe source).restrict tie) negated).collect g ()) :
    x ∈ g.ordering [] ∨ x ∈ sourceCollect g () (some source) := by
  rw [Expr.collect, Query.mem_collect_restrict, mem_collect_probe, Collector.inside_unit, htie] at h
  exact h.resolve_right List.not_mem_nil

/-- The same under two conditions. -/
theorem mem_collect_probed {source : Source} {tie condition : Expr} {negated : Bool}
    (htie : tie.collect g () = []) (hcondition : condition.collect g () = [])
    (h : x ∈ (Expr.exists (((probe source).restrict tie).restrict condition) negated).collect g ()) :
    x ∈ g.ordering [] ∨ x ∈ sourceCollect g () (some source) := by
  rw [Expr.collect, Query.mem_collect_restrict, Collector.inside_unit, hcondition] at h
  have hquery := h.resolve_right List.not_mem_nil
  rw [Query.mem_collect_restrict, mem_collect_probe, Collector.inside_unit, htie] at hquery
  exact hquery.resolve_right List.not_mem_nil

end Planner

end Unread

end ShapeSql
