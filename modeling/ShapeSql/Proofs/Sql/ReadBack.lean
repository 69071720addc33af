import ShapeSql.Proofs.Sql.Reading
import ShapeSql.Proofs.Sql.Settled

namespace ShapeSql.Sql

open Grammar Junction

variable {subs : Substitution} {e : Expr}

/-- The leaves of each of the expressions are settled. -/
theorem settled_of_mem {es : List Expr} (h : ∀ l ∈ exprsCollect .leaves () es, l.Settled subs)
    (he : e ∈ es) :
    ∀ l ∈ e.collect .leaves (), l.Settled subs := by
  rw [exprsCollect_eq] at h
  exact fun l hl => h l (List.mem_flatMap.mpr ⟨e, he, hl⟩)

namespace Substitution

/-- Filling an operand yields an operand without holes. -/
theorem IsOperand.filled (h : subs.IsOperand e)
    (hleaves : ∀ l ∈ e.collect .leaves (), l.Settled subs) :
    Substitution.empty.IsOperand (e.filled (.ofSubstitution subs)) := by
  induction h with
  | column qualifier name => exact .column qualifier name
  | countAll => exact .countAll
  | int value => exact .int value
  | text value => exact .text value
  | null => exact .null
  | param name => exact .param name
  | group _ ih => exact .group (ih hleaves)
  | @hole id e hfound _ ih =>
    have hsettled := hleaves (.hole .expr id) (List.mem_singleton.mpr rfl)
    rw [Expr.filled, hsettled.filled_hole hfound]
    exact ih (hsettled.bound hfound)

/-- Filling a condition yields a condition without holes. -/
theorem IsCondition.filled (h : subs.IsCondition e)
    (hleaves : ∀ l ∈ e.collect .leaves (), l.Settled subs) :
    Substitution.empty.IsCondition (e.filled (.ofSubstitution subs)) := by
  have hoperands : ∀ {operands : List Expr}, operands ≠ [] →
      (∀ l ∈ exprsCollect .leaves () operands, l.Settled subs) →
      (∀ e ∈ operands, (∀ l ∈ e.collect .leaves (), l.Settled subs) →
        Substitution.empty.IsCondition (e.filled (.ofSubstitution subs))) →
      exprsFilled (.ofSubstitution subs) operands ≠ [] ∧
        ∀ e ∈ exprsFilled (.ofSubstitution subs) operands, Substitution.empty.IsCondition e := by
    intro operands hne hleaves ih
    rw [exprsFilled_eq, List.forall_mem_map]
    exact ⟨fun hnil => hne (List.map_eq_nil_iff.mp hnil),
      fun e he => ih e he (settled_of_mem hleaves he)⟩
  induction h with
  | all hne _ ih =>
    obtain ⟨hne, hfilled⟩ := hoperands hne hleaves ih
    exact .all hne hfilled
  | any hne _ ih =>
    obtain ⟨hne, hfilled⟩ := hoperands hne hleaves ih
    exact .any hne hfilled
  | group _ ih => exact .group (ih hleaves)
  | @hole id e hfound _ ih =>
    have hsettled := hleaves (.hole .expr id) (List.mem_singleton.mpr rfl)
    rw [Expr.filled, hsettled.filled_hole hfound]
    exact ih (hsettled.bound hfound)
  | compare op hleft hright =>
    rw [Expr.collect, List.forall_mem_append] at hleaves
    exact .compare op (hleft.filled hleaves.1) (hright.filled hleaves.2)
  | @inList item items negated hitem hitems =>
    cases items with
    | nil => exact nomatch hleaves (.broken .emptyList) (List.mem_singleton.mpr rfl)
    | cons first rest =>
      rw [Expr.collect, List.forall_mem_append, ← exprsCollect] at hleaves
      refine .inList negated (hitem.filled hleaves.1) ?_
      rw [exprsFilled_eq, List.forall_mem_map]
      exact fun e he => (hitems e he).filled (settled_of_mem hleaves.2 he)
  | like negated hitem hpattern =>
    rw [Expr.collect, List.forall_mem_append] at hleaves
    exact .like negated (hitem.filled hleaves.1) (hpattern.filled hleaves.2)
  | isNull negated hitem => exact .isNull negated (hitem.filled hleaves)
  | «exists» query negated => exact .exists (query.filled _) negated

end Substitution

/-- The expression is a condition under the substitution, and all that it leaves open is bound. -/
structure Substitution.Completes (subs : Substitution) (e : Expr) : Prop where
  condition : subs.IsCondition e
  settled : ∀ l ∈ e.collect .leaves (), l.Settled subs

namespace Substitution.Completes

variable {es : List Expr}

theorem settled_operands (h : ∀ e ∈ es, subs.Completes e) :
    ∀ l ∈ exprsCollect .leaves () es, l.Settled subs := by
  rw [exprsCollect_eq, List.forall_mem_flatMap]
  exact fun e he => (h e he).settled

theorem all (hne : es ≠ []) (h : ∀ e ∈ es, subs.Completes e) : subs.Completes (.all es) :=
  ⟨.all hne fun e he => (h e he).condition, settled_operands h⟩

theorem any (hne : es ≠ []) (h : ∀ e ∈ es, subs.Completes e) : subs.Completes (.any es) :=
  ⟨.any hne fun e he => (h e he).condition, settled_operands h⟩

theorem conjuncts (h : subs.Completes e) : ∀ part ∈ e.conjuncts, subs.Completes part := by
  cases e with
  | all operands =>
    obtain ⟨hcondition, hsettled⟩ := h
    cases hcondition with
    | all _ hparts => exact fun part hpart => ⟨hparts part hpart, settled_of_mem hsettled hpart⟩
  | _ => exact List.forall_mem_singleton.mpr h

theorem disjuncts (h : subs.Completes e) : ∀ part ∈ e.disjuncts, subs.Completes part := by
  cases e with
  | any operands =>
    obtain ⟨hcondition, hsettled⟩ := h
    cases hcondition with
    | any _ hparts => exact fun part hpart => ⟨hparts part hpart, settled_of_mem hsettled hpart⟩
  | _ => exact List.forall_mem_singleton.mpr h

/-- What a builder makes of gathered conditions is a condition. -/
theorem gathered {node : List Expr → Expr}
    (hnode : ∀ es, es ≠ [] → (∀ e ∈ es, subs.Completes e) → subs.Completes (node es))
    (h : ∀ e ∈ es, subs.Completes e) : ∀ e ∈ (match es with
      | [] => none
      | [e] => some e
      | flat => some (node flat) : Option Expr), subs.Completes e := by
  match es, h with
  | [], _ => exact nofun
  | [e], h =>
    rintro _ ⟨⟩
    exact h e (List.mem_singleton.mpr rfl)
  | e :: e' :: rest, h =>
    rintro _ ⟨⟩
    exact hnode _ (List.cons_ne_nil _ _) h

theorem allOf? (h : ∀ e ∈ es, subs.Completes e) : ∀ e ∈ Expr.allOf? es, subs.Completes e := by
  refine gathered (fun _ => all) ?_
  rw [List.forall_mem_flatMap]
  exact fun e he => (h e he).conjuncts

theorem anyOf? (h : ∀ e ∈ es, subs.Completes e) : ∀ e ∈ Expr.anyOf? es, subs.Completes e := by
  refine gathered (fun _ => any) ?_
  rw [List.forall_mem_flatMap]
  exact fun e he => (h e he).disjuncts

theorem ne_all_nil (h : subs.Completes e) : e ≠ .all [] := by
  rintro rfl
  cases h.condition with
  | all hne _ => exact hne rfl

theorem restrict {q : Query} (hq : ∀ filter ∈ q.filter, subs.Completes filter)
    (h : subs.Completes e) : ∀ filter ∈ (q.restrict e).filter, subs.Completes filter := by
  cases hfilter : q.filter with
  | none =>
    simp only [Query.restrict, hfilter]
    rintro _ ⟨⟩
    exact h
  | some filter =>
    have hboth : ∀ part ∈ [filter, e], subs.Completes part :=
      List.forall_mem_cons.mpr ⟨hq filter hfilter, List.forall_mem_singleton.mpr h⟩
    rw [Query.filter_restrict hfilter h.ne_all_nil]
    exact allOf? hboth

theorem foldl_restrict {q : Query} (hq : ∀ filter ∈ q.filter, subs.Completes filter)
    (h : ∀ e ∈ es, subs.Completes e) :
    ∀ filter ∈ (es.foldl Query.restrict q).filter, subs.Completes filter := by
  induction es generalizing q with
  | nil => exact hq
  | cons e es ih =>
    rw [List.forall_mem_cons] at h
    exact ih (restrict hq h.1) h.2

end Substitution.Completes

/-- A written condition is read back as one formula, which is true where the condition with its holes filled
is, whatever of its atoms is true; and so in any database. Conditions that the builders join are conditions
again, true as the junction of what was joined. -/
theorem Expr.read_back (subs : Substitution) :
    (∀ e, subs.Completes e → ∃ w, e.written (.ofSubstitution subs) = .ok w ∧ ∃ g : Formula Expr,
      (∀ f, Reads .condition (tokensOf w) f ↔ f = g.map Expr.tokens) ∧
      (∀ v, g.truth v = e.filledTruth (.ofSubstitution subs) v) ∧
      ∀ world env, g.truth (Expr.truth world env) =
        (e.filled (.ofSubstitution subs)).truth world env) ∧
    (∀ operands : List Expr, (∀ e ∈ operands, subs.Completes e) →
      (∀ e ∈ allOf? operands, subs.Completes e) ∧ ∀ e ∈ anyOf? operands, subs.Completes e) ∧
    (∀ (operands : List Expr) f v,
      (allOf? operands).elim .yes (filledTruth f v) =
        conjunction.fold (operands.map (filledTruth f v)) ∧
      (anyOf? operands).elim .no (filledTruth f v) =
        disjunction.fold (operands.map (filledTruth f v))) ∧
    ∀ (q : Query) (conditions : List Expr), (∀ e ∈ conditions, subs.Completes e) →
      ((∀ e ∈ q.filter, subs.Completes e) →
        ∀ e ∈ (conditions.foldl Query.restrict q).filter, subs.Completes e) ∧
      ∀ f v, (conditions.foldl Query.restrict q).filter.elim .yes (filledTruth f v) =
        (q.filter.elim .yes (filledTruth f v)).and
          (conjunction.fold (conditions.map (filledTruth f v))) := by
  refine ⟨?_, ?_, ?_, ?_⟩
  · intro e h
    obtain ⟨w, hw⟩ := e.written_ok (.ofSubstitution subs) fun l hl => (h.settled l hl).writes
    have hclosed : (e.filled (.ofSubstitution subs)).written (.refusing .unbound) = .ok w :=
      e.written_filled (HoleFiller.follows_nested subs _ subs.size) hw
    obtain ⟨g, hread, htruth⟩ := (h.condition.filled h.settled).reads hclosed
    refine ⟨w, hw, g, ?_, htruth, ?_⟩
    · intro f
      refine ⟨fun hf => hf.unique (.term hread), ?_⟩
      rintro rfl
      exact .term hread
    · intro world env
      rw [htruth, Expr.truthBy_truth]
  · exact fun operands h => ⟨Substitution.Completes.allOf? h, Substitution.Completes.anyOf? h⟩
  · exact fun operands f v => ⟨filledTruth_allOf? operands, filledTruth_anyOf? operands⟩
  · intro q conditions h
    refine ⟨fun hq => Substitution.Completes.foldl_restrict hq h, ?_⟩
    exact fun f v => Query.filledTruth_foldl_restrict (fun e he => (h e he).ne_all_nil) q

/-- A person by a number, without a nickname or of a name other than a given one. -/
def knownPerson : Substitution := ⟨[
  (⟨0⟩, .expr (.all [.eq (.columnOf "Person" "Id") (.hole ⟨1⟩),
    .any [.isNull (.columnOf "Person" "Nick") false,
      .like (.columnOf "Person" "Name") (.param "Name") true]])),
  (⟨1⟩, .expr (.param "Id"))]⟩

/-- Such a person, or one of another age of whom no pet is theirs. -/
def wantedPerson : Expr := .any [.hole ⟨0⟩, .all [
  .all [.group (.inList (.columnOf "Person" "Age") [.int 3, .hole ⟨1⟩] true)],
  .exists { Query.reading (.of (.table "Pet" none)) with
    projection := [⟨.int 1, none⟩]
    filter := some (.all [.eq (.columnOf "Pet" "Owner") (.columnOf "Person" "Id"), .hole ⟨0⟩]) } true]]

example : (wantedPerson.written (.ofSubstitution knownPerson)).map textOf = .ok
    ("(\"Person\".\"Id\" = @Id AND (\"Person\".\"Nick\" IS NULL OR \"Person\".\"Name\" NOT LIKE @Name) " ++
      "OR (\"Person\".\"Age\" NOT IN (3, @Id)) AND NOT EXISTS (SELECT 1 FROM \"Pet\" " ++
      "WHERE \"Pet\".\"Owner\" = \"Person\".\"Id\" AND \"Person\".\"Id\" = @Id " ++
      "AND (\"Person\".\"Nick\" IS NULL OR \"Person\".\"Name\" NOT LIKE @Name)))") := by
  decide +kernel

/-- All that the condition leaves open is bound, in the subquery as well. -/
theorem completes_wantedPerson : knownPerson.Completes wantedPerson := by
  have hid : knownPerson.IsOperand (.hole ⟨1⟩) := .hole rfl (.param "Id")
  have hnick : knownPerson.IsCondition (.isNull (.columnOf "Person" "Nick") false) :=
    .isNull false (.column _ _)
  have hname : knownPerson.IsCondition (.like (.columnOf "Person" "Name") (.param "Name") true) :=
    .like true (.column _ _) (.param _)
  have hage : ∀ e ∈ [.int 3, .hole ⟨1⟩], knownPerson.IsOperand e := by
    rw [List.forall_mem_cons, List.forall_mem_singleton]
    exact ⟨.int 3, hid⟩
  have hperson : knownPerson.IsCondition (.hole ⟨0⟩) := by
    refine .hole rfl (.all (List.cons_ne_nil _ _) ?_)
    rw [List.forall_mem_cons, List.forall_mem_singleton]
    refine ⟨.compare .eq (.column _ _) hid, .any (List.cons_ne_nil _ _) ?_⟩
    rw [List.forall_mem_cons, List.forall_mem_singleton]
    exact ⟨hnick, hname⟩
  have hother : knownPerson.IsCondition
      (.all [.group (.inList (.columnOf "Person" "Age") [.int 3, .hole ⟨1⟩] true)]) := by
    refine .all (List.cons_ne_nil _ _) ?_
    rw [List.forall_mem_singleton]
    exact .group (.inList true (.column _ _) hage)
  have hinner : Leaf.Settled knownPerson (.hole .expr ⟨1⟩) := by
    refine .hole rfl rfl ?_
    exact List.forall_mem_singleton.mpr (.param "Id")
  have houter : Leaf.Settled knownPerson (.hole .expr ⟨0⟩) := by
    refine .hole rfl rfl ?_
    exact List.forall_mem_cons.mpr ⟨hinner, List.forall_mem_singleton.mpr (.param "Name")⟩
  constructor
  · refine .any (List.cons_ne_nil _ _) ?_
    rw [List.forall_mem_cons, List.forall_mem_singleton]
    refine ⟨hperson, .all (List.cons_ne_nil _ _) ?_⟩
    rw [List.forall_mem_cons, List.forall_mem_singleton]
    exact ⟨hother, .exists _ true⟩
  · have hleaves : wantedPerson.collect .leaves () =
        [.hole .expr ⟨0⟩, .hole .expr ⟨1⟩, .hole .expr ⟨0⟩] := by decide
    rw [hleaves, List.forall_mem_cons, List.forall_mem_cons, List.forall_mem_singleton]
    exact ⟨houter, hinner, houter⟩

/-- Such a condition is read back, and a query restricted by it and by the hole in it asks for both. -/
theorem read_back_wantedPerson : (∀ e ∈ [wantedPerson, .hole ⟨0⟩], knownPerson.Completes e) ∧
    (∃ w, wantedPerson.written (.ofSubstitution knownPerson) = .ok w ∧ ∃ g : Formula Expr,
      (∀ f, Reads .condition (tokensOf w) f ↔ f = g.map Expr.tokens) ∧
      ∀ v, g.truth v = wantedPerson.filledTruth (.ofSubstitution knownPerson) v) ∧
    (∀ e ∈ Expr.allOf? [wantedPerson, .hole ⟨0⟩], knownPerson.Completes e) ∧
    ∀ q : Query, q.filter = none → ∀ f v,
      ([wantedPerson, .hole ⟨0⟩].foldl Query.restrict q).filter.elim .yes (Expr.filledTruth f v) =
        (wantedPerson.filledTruth f v).and ((Expr.hole ⟨0⟩).filledTruth f v) := by
  have hboth : ∀ e ∈ [wantedPerson, .hole ⟨0⟩], knownPerson.Completes e := by
    rw [List.forall_mem_cons, List.forall_mem_singleton]
    exact ⟨completes_wantedPerson, completes_wantedPerson.disjuncts _ List.mem_cons_self⟩
  obtain ⟨hread, hbuilt, _, hrestricted⟩ := Expr.read_back knownPerson
  obtain ⟨w, hw, g, hg, htruth, _⟩ := hread wantedPerson completes_wantedPerson
  refine ⟨hboth, ⟨w, hw, g, hg, htruth⟩, (hbuilt _ hboth).1, ?_⟩
  intro q hfilter f v
  rw [(hrestricted q _ hboth).2 f v, hfilter, List.map_cons, fold_cons, List.map_singleton,
    fold_singleton]
  rfl

end ShapeSql.Sql
