import ShapeSql.Proofs.Sql.Pruned

namespace ShapeSql.Sql

mutual

/-- The truth of a condition, given that of its atoms. -/
def Expr.truthBy (v : Expr → Truth) : Expr → Truth
  | .all operands => allTruthBy v operands
  | .any operands => anyTruthBy v operands
  | .group inner => inner.truthBy v
  | .exists query true => (v (.exists query false)).not
  | atom => v atom

def allTruthBy (v : Expr → Truth) : List Expr → Truth
  | [] => .yes
  | e :: es => (e.truthBy v).and (allTruthBy v es)

def anyTruthBy (v : Expr → Truth) : List Expr → Truth
  | [] => .no
  | e :: es => (e.truthBy v).or (anyTruthBy v es)

end

section Meaning

variable {w : World} {env : Env}

mutual

/-- The truth of a condition in a database is that by the truth of its atoms there. -/
theorem Expr.truthBy_truth : ∀ e : Expr, e.truthBy (Expr.truth w env) = e.truth w env
  | .all operands => allTruthBy_truth operands
  | .any operands => anyTruthBy_truth operands
  | .group inner => inner.truthBy_truth
  | .exists query true => by
    show (Truth.ofBool ((query.rows w env).isEmpty == false)).not = _
    show _ = Truth.ofBool ((query.rows w env).isEmpty == true)
    cases (query.rows w env).isEmpty <;> rfl
  | .exists query false | .compare _ _ _ | .column _ _ | .countAll | .hole _ | .inList _ _ _
  | .isNull _ _ | .like _ _ _ | .int _ | .text _ | .null | .param _ => rfl

theorem allTruthBy_truth : ∀ es : List Expr, allTruthBy (Expr.truth w env) es = allTruth w env es
  | [] => rfl
  | e :: es => congrArg₂ Truth.and e.truthBy_truth (allTruthBy_truth es)

theorem anyTruthBy_truth : ∀ es : List Expr, anyTruthBy (Expr.truth w env) es = anyTruth w env es
  | [] => rfl
  | e :: es => congrArg₂ Truth.or e.truthBy_truth (anyTruthBy_truth es)

end

end Meaning

/-- A way of joining truths in which neither the parting nor the unit matters. -/
structure Junction where
  join : Truth → Truth → Truth
  unit : Truth
  assoc : ∀ a b c, join (join a b) c = join a (join b c)
  join_unit : ∀ a, join a unit = a
  unit_join : ∀ a, join unit a = a

namespace Junction

def conjunction : Junction where
  join := .and
  unit := .yes
  assoc := Truth.and_assoc
  join_unit := Truth.and_yes
  unit_join _ := rfl

def disjunction : Junction where
  join := .or
  unit := .no
  assoc a b c := by cases a <;> cases b <;> cases c <;> rfl
  join_unit a := by cases a <;> rfl
  unit_join _ := rfl

variable (j : Junction)

def fold (ts : List Truth) : Truth := ts.foldr j.join j.unit

theorem fold_cons (a : Truth) (ts : List Truth) : j.fold (a :: ts) = j.join a (j.fold ts) := rfl

theorem fold_singleton (a : Truth) : j.fold [a] = a := j.join_unit a

theorem fold_append (as bs : List Truth) : j.fold (as ++ bs) = j.join (j.fold as) (j.fold bs) := by
  induction as with
  | nil => exact (j.unit_join _).symm
  | cons a as ih => rw [List.cons_append, fold_cons, ih, fold_cons, j.assoc]

/-- Items may be joined part by part. -/
theorem fold_parts {α : Type} {parts : α → List α} {t : α → Truth}
    (h : ∀ a, j.fold ((parts a).map t) = t a) (items : List α) :
    j.fold ((items.flatMap parts).map t) = j.fold (items.map t) := by
  induction items with
  | nil => rfl
  | cons a items ih =>
    rw [List.flatMap_cons, List.map_append, fold_append, h, ih, List.map_cons, fold_cons]

/-- The condition that a builder makes of gathered operands, a single one standing for itself. -/
theorem fold_gathered {t : Expr → Truth} {node : List Expr → Expr}
    (hnode : ∀ es, t (node es) = j.fold (es.map t)) (gathered : List Expr) :
    (match gathered with
      | [] => none
      | [e] => some e
      | flat => some (node flat) : Option Expr).elim j.unit t = j.fold (gathered.map t) := by
  match gathered with
  | [] => rfl
  | [e] => exact (j.fold_singleton (t e)).symm
  | e :: e' :: rest => exact hnode (e :: e' :: rest)

end Junction

open Junction

theorem allTruthBy_eq (v : Expr → Truth) (es : List Expr) :
    allTruthBy v es = conjunction.fold (es.map (Expr.truthBy v)) := by
  induction es with
  | nil => rfl
  | cons e es ih => exact congrArg (Truth.and (e.truthBy v)) ih

theorem anyTruthBy_eq (v : Expr → Truth) (es : List Expr) :
    anyTruthBy v es = disjunction.fold (es.map (Expr.truthBy v)) := by
  induction es with
  | nil => rfl
  | cons e es ih => exact congrArg (Truth.or (e.truthBy v)) ih

section Builders

variable {f : HoleFiller} {v : Expr → Truth}

/-- The truth of an expression once its holes are filled. -/
def Expr.filledTruth (f : HoleFiller) (v : Expr → Truth) (e : Expr) : Truth := (e.filled f).truthBy v

namespace Expr

theorem filledTruth_all (operands : List Expr) :
    (Expr.all operands).filledTruth f v = conjunction.fold (operands.map (filledTruth f v)) := by
  show allTruthBy v (exprsFilled f operands) = _
  rw [allTruthBy_eq, exprsFilled_eq, List.map_map]
  rfl

theorem filledTruth_any (operands : List Expr) :
    (Expr.any operands).filledTruth f v = disjunction.fold (operands.map (filledTruth f v)) := by
  show anyTruthBy v (exprsFilled f operands) = _
  rw [anyTruthBy_eq, exprsFilled_eq, List.map_map]
  rfl

/-- A conjunction is joined of what a builder takes in of it. -/
theorem fold_conjuncts (e : Expr) :
    conjunction.fold (e.conjuncts.map (filledTruth f v)) = e.filledTruth f v := by
  cases e with
  | all operands => exact (filledTruth_all operands).symm
  | _ => exact conjunction.fold_singleton _

theorem fold_disjuncts (e : Expr) :
    disjunction.fold (e.disjuncts.map (filledTruth f v)) = e.filledTruth f v := by
  cases e with
  | any operands => exact (filledTruth_any operands).symm
  | _ => exact disjunction.fold_singleton _

/-- What is built of operands is true as their conjunction is; without any, that is always. -/
theorem filledTruth_allOf? (operands : List Expr) :
    (allOf? operands).elim .yes (filledTruth f v) =
      conjunction.fold (operands.map (filledTruth f v)) := by
  rw [← conjunction.fold_parts fold_conjuncts]
  exact conjunction.fold_gathered filledTruth_all _

/-- What is built of operands is true as their disjunction is; without any, that is never. -/
theorem filledTruth_anyOf? (operands : List Expr) :
    (anyOf? operands).elim .no (filledTruth f v) =
      disjunction.fold (operands.map (filledTruth f v)) := by
  rw [← disjunction.fold_parts fold_disjuncts]
  exact disjunction.fold_gathered filledTruth_any _

/-- Something is built as soon as there is something to join. -/
theorem allOf?_ne_none {operands : List Expr} {e : Expr} (he : e ∈ operands) (hne : e ≠ .all []) :
    allOf? operands ≠ none := by
  have hparts : e.conjuncts ≠ [] := by
    cases e with
    | all parts => exact fun hnil => hne (congrArg Expr.all hnil)
    | _ => exact List.cons_ne_nil _ _
  have hflat : operands.flatMap conjuncts ≠ [] :=
    fun hnil => hparts (List.flatMap_eq_nil_iff.mp hnil e he)
  rw [allOf?]
  rcases hgathered : operands.flatMap conjuncts with _ | ⟨first, _ | ⟨second, rest⟩⟩
  · exact absurd hgathered hflat
  · exact Option.some_ne_none _
  · exact Option.some_ne_none _

end Expr

namespace Query

/-- A condition with an operand is joined to the filter that is there. -/
theorem filter_restrict {q : Query} {filter e : Expr} (hfilter : q.filter = some filter)
    (hne : e ≠ .all []) : (q.restrict e).filter = Expr.allOf? [filter, e] := by
  have hmem : e ∈ [filter, e] := List.mem_cons_of_mem _ List.mem_cons_self
  obtain ⟨joined, hjoined⟩ := Option.ne_none_iff_exists'.mp (Expr.allOf?_ne_none hmem hne)
  simp only [restrict, hfilter, Expr.and, Expr.allOf, hjoined, Option.getD_some]

/-- A restricted query asks for what it asked for before and for the new condition. -/
theorem filledTruth_restrict (q : Query) {e : Expr} (hne : e ≠ .all []) :
    (q.restrict e).filter.elim .yes (Expr.filledTruth f v) =
      (q.filter.elim .yes (Expr.filledTruth f v)).and (e.filledTruth f v) := by
  cases hfilter : q.filter with
  | none =>
    simp only [restrict, hfilter]
    rfl
  | some filter =>
    rw [filter_restrict hfilter hne, Expr.filledTruth_allOf?, List.map_cons, fold_cons, List.map_cons,
      List.map_nil, fold_singleton]
    rfl

/-- A query restricted again and again asks for what it asked for before and for all of the conditions. -/
theorem filledTruth_foldl_restrict {conditions : List Expr} (hne : ∀ e ∈ conditions, e ≠ .all [])
    (q : Query) : (conditions.foldl restrict q).filter.elim .yes (Expr.filledTruth f v) =
      (q.filter.elim .yes (Expr.filledTruth f v)).and
        (conjunction.fold (conditions.map (Expr.filledTruth f v))) := by
  induction conditions generalizing q with
  | nil => exact (Truth.and_yes _).symm
  | cons e conditions ih =>
    rw [List.forall_mem_cons] at hne
    rw [List.foldl_cons, ih hne.2, filledTruth_restrict q hne.1, Truth.and_assoc, List.map_cons,
      fold_cons]
    rfl

end Query

end Builders

end ShapeSql.Sql
