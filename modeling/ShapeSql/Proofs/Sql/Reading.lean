import ShapeSql.Proofs.Sql.Grammar
import ShapeSql.Proofs.Sql.Junction
import ShapeSql.Proofs.Sql.Woven

namespace ShapeSql.Sql

open Grammar Junction

/-- Expressions that are no conditions; a hole is bound to such an expression. -/
inductive Substitution.IsOperand (subs : Substitution) : Expr → Prop where
  | column (qualifier : Option Qualifier) (name : String) : IsOperand subs (.column qualifier name)
  | countAll : IsOperand subs .countAll
  | int (value : Int64) : IsOperand subs (.int value)
  | text (value : String) : IsOperand subs (.text value)
  | null : IsOperand subs .null
  | param (name : String) : IsOperand subs (.param name)
  | group {inner : Expr} : IsOperand subs inner → IsOperand subs (.group inner)
  | hole {id : HoleId} {e : Expr} :
    subs.find? id = some (.expr e) → IsOperand subs e → IsOperand subs (.hole id)

/-- Conditions: predicates about operands, joined and grouped; a hole is bound to a condition. -/
inductive Substitution.IsCondition (subs : Substitution) : Expr → Prop where
  | all {operands : List Expr} :
    operands ≠ [] → (∀ e ∈ operands, IsCondition subs e) → IsCondition subs (.all operands)
  | any {operands : List Expr} :
    operands ≠ [] → (∀ e ∈ operands, IsCondition subs e) → IsCondition subs (.any operands)
  | group {inner : Expr} : IsCondition subs inner → IsCondition subs (.group inner)
  | hole {id : HoleId} {e : Expr} :
    subs.find? id = some (.expr e) → IsCondition subs e → IsCondition subs (.hole id)
  | compare {left right : Expr} (op : CompareOp) :
    subs.IsOperand left → subs.IsOperand right → IsCondition subs (.compare left op right)
  | inList {item : Expr} {items : List Expr} (negated : Bool) :
    subs.IsOperand item → (∀ e ∈ items, subs.IsOperand e) → IsCondition subs (.inList item items negated)
  | like {item pattern : Expr} (negated : Bool) :
    subs.IsOperand item → subs.IsOperand pattern → IsCondition subs (.like item pattern negated)
  | isNull {item : Expr} (negated : Bool) :
    subs.IsOperand item → IsCondition subs (.isNull item negated)
  | exists (query : Query) (negated : Bool) : IsCondition subs (.exists query negated)

/-- The tokens of an expression without holes. -/
def Expr.tokens (e : Expr) : List Token :=
  match e.written (.refusing .unbound) with
  | .ok w => tokensOf w
  | .error _ => []

theorem Expr.tokens_of_written {e : Expr} {w : List Lexeme}
    (h : e.written (.refusing .unbound) = .ok w) : e.tokens = tokensOf w := by
  rw [tokens, h]

/-- The tokens are read as a formula over the atoms of the condition that is true where the condition is. -/
def Expr.ReadsAt (p : Precedence) (e : Expr) (ts : List Token) : Prop :=
  ∃ g : Formula Expr, Reads p ts (g.map Expr.tokens) ∧ ∀ v, g.truth v = e.truthBy v

section Chains

variable {es : List Expr} {xs ys : List Token}

/-- A term that is read after another one and AND is read as more factors of it. -/
theorem Grammar.Reads.and_term {p : Precedence} {α : Type} {h : α → List Token} {f g : Formula α}
    {k : Formula (List Token)} (hf : Reads .term xs (f.map h)) (hg : Reads p ys k) (hp : p = .term)
    (hk : k = g.map h) : ∃ f' : Formula α, Reads .term (xs ++ .word "AND" :: ys) (f'.map h) ∧
      ∀ v, f'.truth v = (f.truth v).and (g.truth v) := by
  induction hg generalizing g with
  | factor hg _ =>
    rw [hk] at hg
    exact ⟨.and f g, .and hf hg, fun v => rfl⟩
  | and hterm hfactor ih _ =>
    cases g with
    | and g g' =>
      obtain ⟨rfl, rfl⟩ := Formula.and.inj hk
      obtain ⟨f', hf', htruth⟩ := ih rfl rfl
      refine ⟨.and f' g', ?_, ?_⟩
      · have hread := Reads.and hf' hfactor
        rwa [List.append_assoc] at hread
      · intro v
        rw [Formula.truth, htruth, Truth.and_assoc, Formula.truth]
    | _ => cases hk
  | _ => cases hp

/-- Terms with the separator between them are read at the precedence as their junction. -/
structure Joins (p : Precedence) (separator : String) (j : Junction) : Prop where
  first : ∀ {ts f}, Reads .term ts f → Reads p ts f
  next : ∀ {xs ys} {f g : Formula Expr}, Reads p xs (f.map Expr.tokens) →
    Reads .term ys (g.map Expr.tokens) → ∃ f' : Formula Expr,
      Reads p (xs ++ (Lexeme.word separator).tokens ++ ys) (f'.map Expr.tokens) ∧
        ∀ v, f'.truth v = j.join (f.truth v) (g.truth v)

theorem joins_and : Joins .term " AND " conjunction where
  first h := h
  next hf hg := by
    rw [List.append_assoc]
    exact hf.and_term hg rfl rfl

theorem joins_or : Joins .condition " OR " disjunction where
  first h := .term h
  next {xs ys f g} hf hg := by
    rw [List.append_assoc]
    exact ⟨.or f g, .or hf hg, fun v => rfl⟩

namespace Joins

variable {p : Precedence} {separator : String} {j : Junction}

/-- Each operand after the first is read as one more part of the chain. -/
theorem reads_rest (hjoin : Joins p separator j) {f : Formula Expr}
    (hf : Reads p xs (f.map Expr.tokens)) {items : List (List Lexeme)}
    (hes : List.Forall₂ (fun e w => e.ReadsAt .term (tokensOf w)) es items) :
    ∃ f' : Formula Expr,
      Reads p (xs ++ items.flatMap fun w => (Lexeme.word separator).tokens ++ tokensOf w)
        (f'.map Expr.tokens) ∧
      ∀ v, f'.truth v = j.join (f.truth v) (j.fold (es.map (Expr.truthBy v))) := by
  induction hes generalizing xs f with
  | nil =>
    refine ⟨f, ?_, fun v => (j.join_unit _).symm⟩
    rwa [List.flatMap_nil, List.append_nil]
  | @cons e w es items hfirst _ ih =>
    obtain ⟨g, hg, hgtruth⟩ := hfirst
    obtain ⟨f₁, hf₁, htruth₁⟩ := hjoin.next hf hg
    obtain ⟨f', hf', htruth⟩ := ih hf₁
    refine ⟨f', ?_, ?_⟩
    · rwa [List.flatMap_cons, ← List.append_assoc, ← List.append_assoc]
    · intro v
      rw [htruth, htruth₁, hgtruth, List.map_cons, fold_cons, j.assoc]

/-- Operands that are read as terms each are read as a chain of them all. -/
theorem reads_separated (hjoin : Joins p separator j) (hne : es ≠ [])
    {items : List (List Lexeme)}
    (hes : List.Forall₂ (fun e w => e.ReadsAt .term (tokensOf w)) es items) :
    ∃ f : Formula Expr, Reads p (tokensOf (separated separator items)) (f.map Expr.tokens) ∧
      ∀ v, f.truth v = j.fold (es.map (Expr.truthBy v)) := by
  cases hes with
  | nil => exact absurd rfl hne
  | @cons e w es items hfirst hrest =>
    obtain ⟨f, hf, hftruth⟩ := hfirst
    obtain ⟨f', hf', htruth⟩ := hjoin.reads_rest (hjoin.first hf) hrest
    refine ⟨f', ?_, ?_⟩
    · rwa [tokensOf_separated]
    · intro v
      rw [htruth, hftruth, List.map_cons, fold_cons]

end Joins

end Chains

theorem forall₂_exprsWritten {holes : HolePrinter} {es : List Expr} {items : List (List Lexeme)}
    (h : exprsWritten holes es = .ok items) :
    List.Forall₂ (fun e w => e.written holes = .ok w) es items := by
  induction es generalizing items with
  | nil =>
    cases h
    exact .nil
  | cons e es ih =>
    simp only [exprsWritten, except_bind_ok] at h
    obtain ⟨first, hfirst, rest, hrest, hpure⟩ := h
    cases hpure
    exact .cons hfirst (ih hrest)

section Closed

variable {e : Expr} {w : List Lexeme}

namespace Expr.ReadsAt

/-- An atom is read as itself. -/
theorem atom (hw : e.written (.refusing .unbound) = .ok w) (hread : Predicate (tokensOf w))
    (htruth : ∀ v, e.truthBy v = v e) : e.ReadsAt .term (tokensOf w) := by
  refine ⟨.atom e, ?_, fun v => (htruth v).symm⟩
  rw [Formula.map, e.tokens_of_written hw]
  exact .factor (.primary (.predicate hread))

end Expr.ReadsAt

/-- An operand without holes is read as one. -/
theorem Substitution.IsOperand.reads (h : Substitution.empty.IsOperand e)
    (hw : e.written (.refusing .unbound) = .ok w) : Operand (tokensOf w) := by
  induction h generalizing w with
  | column qualifier name =>
    cases hw
    match qualifier with
    | some (.source aliasName) => exact .qualified aliasName name
    | some .inserted => exact .inserted name
    | none => exact .column name
  | countAll =>
    cases hw
    exact .count
  | int value =>
    cases hw
    exact .number value.toInt
  | text value =>
    cases hw
    exact .literal value
  | null =>
    cases hw
    exact .null
  | param name =>
    cases hw
    exact .variable name
  | group _ ih =>
    obtain ⟨inner, hinner, hpure⟩ := except_bind_ok.mp hw
    cases hpure
    rw [tokensOf_enclosed [] rfl]
    exact (ih hinner).group
  | hole hfound => cases hfound

theorem reads_operands {es : List Expr} {items : List (List Lexeme)}
    (hes : ∀ e ∈ es, ∀ {w}, e.written (.refusing .unbound) = .ok w → e.ReadsAt .term (tokensOf w))
    (h : exprsWritten (.refusing .unbound) es = .ok items) :
    List.Forall₂ (fun e w => e.ReadsAt .term (tokensOf w)) es items := by
  have hwritten := forall₂_exprsWritten h
  clear h
  induction hwritten with
  | nil => exact .nil
  | cons hfirst _ ih =>
    rw [List.forall_mem_cons] at hes
    exact .cons (hes.1 hfirst) (ih hes.2)

theorem reads_operandList {items : List (List Lexeme)} (hitems : ∀ w ∈ items, Operand (tokensOf w))
    (hw : Operand (tokensOf w)) : OperandList (tokensOf (commaed (w :: items))) := by
  rw [commaed, tokensOf_separated]
  induction items generalizing w with
  | nil =>
    rw [List.flatMap_nil, List.append_nil]
    exact .last hw
  | cons item items ih =>
    rw [List.forall_mem_cons] at hitems
    rw [List.flatMap_cons, List.append_assoc]
    exact .cons hw (ih hitems.2 hitems.1)

section Atoms

variable {item : Expr}

theorem reads_compare {left right : Expr} {op : CompareOp} (hleft : Substitution.empty.IsOperand left)
    (hright : Substitution.empty.IsOperand right)
    (hw : (Expr.compare left op right).written (.refusing .unbound) = .ok w) :
    Predicate (tokensOf w) := by
  simp only [Expr.written, except_bind_ok] at hw
  obtain ⟨l, hl, r, hr, hpure⟩ := hw
  cases hpure
  have hsign : (Lexeme.word (" " ++ op.sign ++ " ")).tokens = [.word op.sign] := by
    cases op <;> rfl
  rw [tokensOf_append, tokensOf_cons, hsign]
  exact .compare op (hleft.reads hl) (hright.reads hr)

theorem reads_inList {items : List Expr} {negated : Bool} (hitem : Substitution.empty.IsOperand item)
    (hitems : ∀ e ∈ items, Substitution.empty.IsOperand e)
    (hw : (Expr.inList item items negated).written (.refusing .unbound) = .ok w) :
    Predicate (tokensOf w) := by
  cases items with
  | nil => cases hw
  | cons first rest =>
    rw [List.forall_mem_cons] at hitems
    simp only [Expr.written, except_bind_ok] at hw
    obtain ⟨l, hl, head, hhead, tail, htail, hpure⟩ := hw
    cases hpure
    have hlist : OperandList (tokensOf (commaed (head :: tail))) := by
      refine reads_operandList ?_ (hitems.1.reads hhead)
      intro w hw
      obtain ⟨e, he, hew⟩ := mem_left_of_forall₂ (forall₂_exprsWritten htail) hw
      exact (hitems.2 e he).reads hew
    have hin : (Lexeme.word (if negated then " NOT IN (" else " IN (")).tokens =
        optionalNot negated ++ [.word "IN"] ++ [.opening] := by
      cases negated <;> rfl
    rw [List.append_assoc, List.cons_append, tokensOf_append, ← List.cons_append,
      tokensOf_enclosed _ hin, List.append_assoc]
    exact .inList negated (hitem.reads hl) hlist

theorem reads_like {pattern : Expr} {negated : Bool} (hitem : Substitution.empty.IsOperand item)
    (hpattern : Substitution.empty.IsOperand pattern)
    (hw : (Expr.like item pattern negated).written (.refusing .unbound) = .ok w) :
    Predicate (tokensOf w) := by
  simp only [Expr.written, except_bind_ok] at hw
  obtain ⟨l, hl, r, hr, hpure⟩ := hw
  cases hpure
  have hlike : (Lexeme.word (if negated then " NOT LIKE " else " LIKE ")).tokens =
      optionalNot negated ++ [.word "LIKE"] := by
    cases negated <;> rfl
  rw [tokensOf_append, tokensOf_cons, hlike, List.append_assoc]
  exact .like negated (hitem.reads hl) (hpattern.reads hr)

theorem reads_isNull {negated : Bool} (hitem : Substitution.empty.IsOperand item)
    (hw : (Expr.isNull item negated).written (.refusing .unbound) = .ok w) :
    Predicate (tokensOf w) := by
  simp only [Expr.written, except_bind_ok] at hw
  obtain ⟨l, hl, hpure⟩ := hw
  cases hpure
  have hnull : tokensOf [.word (if negated then " IS NOT NULL" else " IS NULL")] =
      .word "IS" :: (optionalNot negated ++ [.word "NULL"]) := by
    cases negated <;> rfl
  rw [tokensOf_append, hnull]
  exact .isNull negated (hitem.reads hl)

theorem reads_exists {query : Query} {q : List Lexeme} (hq : query.written (.refusing .unbound) = .ok q) :
    (Expr.exists query false).written (.refusing .unbound) =
        .ok (.word "EXISTS (" :: q ++ [.word ")"]) ∧
      Predicate (tokensOf (.word "EXISTS (" :: q ++ [.word ")"])) := by
  refine ⟨?_, ?_⟩
  · rw [Expr.written, hq]
    rfl
  · rw [tokensOf_enclosed [.word "EXISTS"] rfl]
    exact .exists (query.woven_written (HolePrinter.weaves_refusing .unbound) hq).nests

end Atoms

/-- A condition without holes is read as a formula of its atoms. -/
theorem Substitution.IsCondition.reads (h : Substitution.empty.IsCondition e)
    (hw : e.written (.refusing .unbound) = .ok w) : e.ReadsAt .term (tokensOf w) := by
  induction h generalizing w with
  | @all operands hne _ ih =>
    simp only [Expr.written, except_bind_ok] at hw
    obtain ⟨items, hitems, hpure⟩ := hw
    cases hpure
    obtain ⟨f, hf, htruth⟩ := joins_and.reads_separated hne (reads_operands ih hitems)
    refine ⟨f, hf, ?_⟩
    intro v
    rw [htruth, Expr.truthBy, allTruthBy_eq]
  | @any operands hne _ ih =>
    simp only [Expr.written, except_bind_ok] at hw
    obtain ⟨items, hitems, hpure⟩ := hw
    cases hpure
    obtain ⟨f, hf, htruth⟩ := joins_or.reads_separated hne (reads_operands ih hitems)
    refine ⟨f, ?_, ?_⟩
    · rw [tokensOf_enclosed [] rfl]
      exact .factor (.primary (.group hf))
    · intro v
      rw [htruth, Expr.truthBy, anyTruthBy_eq]
  | group _ ih =>
    simp only [Expr.written, except_bind_ok] at hw
    obtain ⟨inner, hinner, hpure⟩ := hw
    cases hpure
    obtain ⟨f, hf, htruth⟩ := ih hinner
    refine ⟨f, ?_, htruth⟩
    rw [tokensOf_enclosed [] rfl]
    exact .factor (.primary (.group (.term hf)))
  | hole hfound => cases hfound
  | compare op hleft hright => exact .atom hw (reads_compare hleft hright hw) fun v => rfl
  | inList negated hitem hitems => exact .atom hw (reads_inList hitem hitems hw) fun v => rfl
  | like negated hitem hpattern => exact .atom hw (reads_like hitem hpattern hw) fun v => rfl
  | isNull negated hitem => exact .atom hw (reads_isNull hitem hw) fun v => rfl
  | «exists» query negated =>
    simp only [Expr.written, except_bind_ok] at hw
    obtain ⟨q, hq, hpure⟩ := hw
    cases hpure
    obtain ⟨hw, hread⟩ := reads_exists hq
    cases negated with
    | false => exact .atom hw hread fun v => rfl
    | true =>
      refine ⟨.not (.atom (.exists query false)), ?_, fun v => rfl⟩
      have hnot : tokensOf (.word "NOT EXISTS (" :: q ++ [.word ")"]) =
          .word "NOT" :: tokensOf (.word "EXISTS (" :: q ++ [.word ")"]) := by
        rw [tokensOf_enclosed [.word "NOT", .word "EXISTS"] rfl,
          tokensOf_enclosed [.word "EXISTS"] rfl]
        rfl
      rw [Formula.map, Formula.map, Expr.tokens_of_written hw]
      simp only [if_true]
      rw [hnot]
      exact .factor (.not (.primary (.predicate hread)))

end Closed

end ShapeSql.Sql
