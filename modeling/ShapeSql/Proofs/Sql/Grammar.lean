import ShapeSql.Proofs.Sql.Meaning
import ShapeSql.Proofs.Sql.Tokens

/-!
The grammar of search conditions. NOT binds tighter than AND and AND tighter than OR, chains of either are
read from the left, and parentheses group. Operands may stand in parentheses too, and a condition may start
with such an operand; still no sequence of tokens is read in two ways.
-/

namespace ShapeSql.Sql.Grammar

/-- A condition as it is read, its predicates left open. -/
inductive Formula (α : Type) where
  | atom (a : α)
  | not (f : Formula α)
  | and (f g : Formula α)
  | or (f g : Formula α)
  deriving DecidableEq, Repr

namespace Formula

variable {α β : Type}

def map (h : α → β) : Formula α → Formula β
  | .atom a => .atom (h a)
  | .not f => .not (f.map h)
  | .and f g => .and (f.map h) (g.map h)
  | .or f g => .or (f.map h) (g.map h)

/-- The truth of a formula, given that of its atoms. -/
def truth (v : α → Truth) : Formula α → Truth
  | .atom a => v a
  | .not f => (f.truth v).not
  | .and f g => (f.truth v).and (g.truth v)
  | .or f g => (f.truth v).or (g.truth v)

end Formula

/-- What predicates are about. -/
inductive Operand : List Token → Prop where
  | column (name : String) : Operand [.name name]
  | qualified (source name : String) : Operand [.name source, .word ".", .name name]
  | inserted (name : String) : Operand [.word "inserted", .word ".", .name name]
  | count : Operand (.word "count" :: parenthesized [.word "*"])
  | number (value : Int) : Operand [.number value]
  | literal (text : String) : Operand [.literal text]
  | variable (name : String) : Operand [.variable name]
  | null : Operand [.word "NULL"]
  | group {ts : List Token} : Operand ts → Operand (parenthesized ts)

/-- Operands with commas between them. -/
inductive OperandList : List Token → Prop where
  | last {ts : List Token} : Operand ts → OperandList ts
  | cons {ts rest : List Token} :
    Operand ts → OperandList rest → OperandList (ts ++ .word "," :: rest)

def optionalNot (negated : Bool) : List Token := if negated then [.word "NOT"] else []

/-- The atoms of conditions. Of a subquery nothing is asked but that its parentheses nest. -/
inductive Predicate : List Token → Prop where
  | compare {left right : List Token} (op : CompareOp) :
    Operand left → Operand right → Predicate (left ++ .word op.sign :: right)
  | inList {item items : List Token} (negated : Bool) : Operand item → OperandList items →
    Predicate (item ++ (optionalNot negated ++ .word "IN" :: parenthesized items))
  | like {item pattern : List Token} (negated : Bool) : Operand item → Operand pattern →
    Predicate (item ++ (optionalNot negated ++ .word "LIKE" :: pattern))
  | isNull {item : List Token} (negated : Bool) : Operand item →
    Predicate (item ++ .word "IS" :: (optionalNot negated ++ [.word "NULL"]))
  | exists {query : List Token} : Balanced query → Predicate (.word "EXISTS" :: parenthesized query)

/-- How tightly the parts of a condition are bound. -/
inductive Precedence where
  | primary | factor | term | condition
  deriving DecidableEq, Repr

/-- The tokens are read as the formula. -/
inductive Reads : Precedence → List Token → Formula (List Token) → Prop where
  | predicate {ts : List Token} : Predicate ts → Reads .primary ts (.atom ts)
  | group {ts : List Token} {f : Formula (List Token)} :
    Reads .condition ts f → Reads .primary (parenthesized ts) f
  | primary {ts : List Token} {f : Formula (List Token)} :
    Reads .primary ts f → Reads .factor ts f
  | not {ts : List Token} {f : Formula (List Token)} :
    Reads .factor ts f → Reads .factor (.word "NOT" :: ts) (.not f)
  | factor {ts : List Token} {f : Formula (List Token)} :
    Reads .factor ts f → Reads .term ts f
  | and {xs ys : List Token} {f g : Formula (List Token)} :
    Reads .term xs f → Reads .factor ys g → Reads .term (xs ++ .word "AND" :: ys) (.and f g)
  | term {ts : List Token} {f : Formula (List Token)} :
    Reads .term ts f → Reads .condition ts f
  | or {xs ys : List Token} {f g : Formula (List Token)} :
    Reads .condition xs f → Reads .term ys g →
      Reads .condition (xs ++ .word "OR" :: ys) (.or f g)

open Token

section Parts

variable {ts : List Token} {s : String}

theorem balanced_optionalNot (negated : Bool) : Balanced (optionalNot negated) := by
  cases negated <;> rfl

theorem Operand.balanced (h : Operand ts) : Balanced ts := by
  induction h with
  | group _ ih => exact ih.parenthesized
  | _ => rfl

theorem OperandList.balanced (h : OperandList ts) : Balanced ts := by
  induction h with
  | last h => exact h.balanced
  | cons h _ ih => exact h.balanced.append ih.word_cons

theorem Predicate.balanced (h : Predicate ts) : Balanced ts := by
  cases h with
  | compare op hleft hright => exact hleft.balanced.append hright.balanced.word_cons
  | inList negated hitem hitems =>
    exact hitem.balanced.append
      ((balanced_optionalNot negated).append hitems.balanced.parenthesized.word_cons)
  | like negated hitem hpattern =>
    exact hitem.balanced.append
      ((balanced_optionalNot negated).append hpattern.balanced.word_cons)
  | isNull negated hitem =>
    exact hitem.balanced.append
      (Balanced.word_cons ((balanced_optionalNot negated).append (.word_cons .nil)))
  | «exists» hquery => exact hquery.parenthesized.word_cons

theorem Reads.balanced {p : Precedence} {f : Formula (List Token)} (h : Reads p ts f) : Balanced ts := by
  induction h with
  | predicate h => exact h.balanced
  | group _ ih => exact ih.parenthesized
  | not _ ih => exact ih.word_cons
  | primary _ ih | factor _ ih | term _ ih => exact ih
  | and _ _ ih ih' | or _ _ ih ih' => exact ih.append ih'.word_cons

end Parts

section Surface

variable {ts xs ys : List Token} {s k : String} {f g : Formula (List Token)}

/-- The words that join conditions. -/
def IsConnective (s : String) : Prop := s = "AND" ∨ s = "OR"

instance (s : String) : Decidable (IsConnective s) :=
  inferInstanceAs (Decidable (s = "AND" ∨ s = "OR"))

theorem IsConnective.ne (hs : IsConnective s) (hk : ¬IsConnective k) : s ≠ k := by
  rintro rfl
  exact hk hs

/-- The word is not on the surface. -/
def Lacks (s : String) (ts : List Token) : Prop := .word s ∉ surface 0 ts

namespace Lacks

theorem append (h : Lacks s xs) (hxs : Balanced xs) (h' : Lacks s ys) : Lacks s (xs ++ ys) := by
  rw [Lacks, hxs.surface_append]
  exact List.not_mem_append h h'

theorem word_cons (hk : s ≠ k) (h : Lacks s ts) : Lacks s (.word k :: ts) := by
  intro hmem
  rcases List.mem_cons.mp hmem with hsame | hrest
  · exact hk (Token.word.inj hsame)
  · exact h hrest

theorem parenthesized (h : Balanced ts) : Lacks s (parenthesized ts) := by
  rw [Lacks, h.surface_parenthesized]
  exact List.not_mem_nil

theorem nil : Lacks s [] := List.not_mem_nil

/-- The word does not part the sequence. -/
theorem ne_parted (h : Lacks s ts) (hxs : Balanced xs) : ts ≠ xs ++ .word s :: ys := by
  rintro rfl
  rw [Lacks, hxs.surface_append] at h
  exact h (List.mem_append_right _ List.mem_cons_self)

theorem optionalNot (hs : IsConnective s) (negated : Bool) : Lacks s (optionalNot negated) := by
  cases negated with
  | false => exact .nil
  | true => exact .word_cons (hs.ne (by decide)) .nil

end Lacks

theorem Operand.lacks (h : Operand ts) (hs : IsConnective s) : Lacks s ts := by
  cases h with
  | group h => exact .parenthesized h.balanced
  | _ => rcases hs with rfl | rfl <;> simp [Lacks, surface, Sql.parenthesized]

theorem Predicate.lacks (h : Predicate ts) (hs : IsConnective s) : Lacks s ts := by
  cases h with
  | compare op hleft hright =>
    have hsign : s ≠ op.sign := hs.ne (by cases op <;> decide)
    exact (hleft.lacks hs).append hleft.balanced (.word_cons hsign (hright.lacks hs))
  | inList negated hitem hitems =>
    exact (hitem.lacks hs).append hitem.balanced ((Lacks.optionalNot hs negated).append
      (balanced_optionalNot negated)
      (.word_cons (hs.ne (by decide)) (.parenthesized hitems.balanced)))
  | like negated hitem hpattern =>
    exact (hitem.lacks hs).append hitem.balanced ((Lacks.optionalNot hs negated).append
      (balanced_optionalNot negated) (.word_cons (hs.ne (by decide)) (hpattern.lacks hs)))
  | isNull negated hitem =>
    exact (hitem.lacks hs).append hitem.balanced (.word_cons (hs.ne (by decide))
      ((Lacks.optionalNot hs negated).append (balanced_optionalNot negated)
        (.word_cons (hs.ne (by decide)) .nil)))
  | «exists» hquery => exact .word_cons (hs.ne (by decide)) (.parenthesized hquery)

/-- The connectives that stand only in the parentheses of a part. -/
def Precedence.Excludes : Precedence → String → Prop
  | .primary, s | .factor, s => IsConnective s
  | .term, s => s = "OR"
  | .condition, _ => False

theorem Reads.lacks {p : Precedence} (h : Reads p ts f) (hs : p.Excludes s) : Lacks s ts := by
  induction h with
  | predicate h => exact h.lacks hs
  | group h _ => exact .parenthesized h.balanced
  | primary _ ih => exact ih hs
  | not _ ih => exact .word_cons (IsConnective.ne hs (by decide)) (ih hs)
  | factor _ ih => exact ih (.inr hs)
  | and h _ ih ih' =>
    have hor : s = "OR" := hs
    have hand : s ≠ "AND" := by
      rw [hor]
      decide
    exact (ih hs).append h.balanced (.word_cons hand (ih' (.inr hs)))
  | term _ _ | or _ _ _ _ => exact hs.elim

end Surface

section Unique

variable {ts xs ys : List Token} {f g : Formula (List Token)}

/-- A predicate has a keyword or a sign on its surface, so that it is not all in parentheses. -/
theorem Predicate.ne_parenthesized (h : Predicate ts) (hxs : Balanced xs) : ts ≠ parenthesized xs := by
  rintro rfl
  have hsurface := hxs.surface_parenthesized
  have hword : ∀ {before after : List Token} {s : String}, Balanced before →
      parenthesized xs ≠ before ++ .word s :: after := by
    intro before after s hbefore hsame
    rw [hsame, hbefore.surface_append] at hsurface
    exact absurd (List.append_eq_nil_iff.mp hsurface).2 (List.cons_ne_nil _ _)
  generalize hsame : parenthesized xs = ts at h
  cases h with
  | compare op hleft hright => exact hword hleft.balanced hsame
  | inList negated hitem hitems | like negated hitem hpattern =>
    rw [← List.append_assoc] at hsame
    exact hword (hitem.balanced.append (balanced_optionalNot negated)) hsame
  | isNull negated hitem => exact hword hitem.balanced hsame
  | «exists» hquery => exact hword .nil hsame

theorem Operand.ne_not (h : Operand xs) : xs ++ ys ≠ .word "NOT" :: ts := by
  intro hsame
  cases h <;> simp [parenthesized] at hsame

theorem Predicate.ne_not (h : Predicate xs) : xs ≠ .word "NOT" :: ts := by
  cases h with
  | compare op h _ | inList _ h _ | like _ h _ | isNull _ h => exact h.ne_not
  | «exists» h => simp

theorem Reads.primary_cases (h : Reads .primary ts f) :
    (Predicate ts ∧ f = .atom ts) ∨ ∃ inner, ts = parenthesized inner ∧ Reads .condition inner f := by
  cases h with
  | predicate h => exact .inl ⟨h, rfl⟩
  | group h => exact .inr ⟨_, rfl, h⟩

theorem Reads.factor_cases (h : Reads .factor ts f) : Reads .primary ts f ∨
    ∃ rest g, ts = .word "NOT" :: rest ∧ f = .not g ∧ Reads .factor rest g := by
  cases h with
  | primary h => exact .inl h
  | not h => exact .inr ⟨_, _, rfl, rfl, h⟩

theorem Reads.term_cases (h : Reads .term ts f) : Reads .factor ts f ∨ ∃ xs ys g h,
    ts = xs ++ .word "AND" :: ys ∧ f = .and g h ∧ Reads .term xs g ∧ Reads .factor ys h := by
  cases h with
  | factor h => exact .inl h
  | and h h' => exact .inr ⟨_, _, _, _, rfl, rfl, h, h'⟩

theorem Reads.condition_cases (h : Reads .condition ts f) : Reads .term ts f ∨ ∃ xs ys g h,
    ts = xs ++ .word "OR" :: ys ∧ f = .or g h ∧ Reads .condition xs g ∧ Reads .term ys h := by
  cases h with
  | term h => exact .inl h
  | or h h' => exact .inr ⟨_, _, _, _, rfl, rfl, h, h'⟩

theorem Reads.primary_ne_not (h : Reads .primary ts f) : ts ≠ .word "NOT" :: xs := by
  rcases h.primary_cases with ⟨h, _⟩ | ⟨inner, rfl, _⟩
  · exact h.ne_not
  · simp [parenthesized]

/-- A sequence of tokens is read in one way. -/
theorem Reads.unique {p : Precedence} (h : Reads p ts f) (h' : Reads p ts g) : f = g := by
  -- The other reading ends with the same rule, or with one that needs a connective on the surface where
  -- the first reading has none.
  induction h generalizing g with
  | predicate h =>
    rcases h'.primary_cases with ⟨_, rfl⟩ | ⟨inner, hsame, hinner⟩
    · rfl
    · exact absurd hsame (h.ne_parenthesized hinner.balanced)
  | group h ih =>
    rcases h'.primary_cases with ⟨h', _⟩ | ⟨inner, hsame, hinner⟩
    · exact absurd rfl (h'.ne_parenthesized h.balanced)
    · obtain rfl := List.append_cancel_right (List.cons.inj hsame).2
      exact ih hinner
  | primary h ih =>
    rcases h'.factor_cases with h' | ⟨rest, _, hsame, _, _⟩
    · exact ih h'
    · exact absurd hsame h.primary_ne_not
  | not h ih =>
    rcases h'.factor_cases with h' | ⟨rest, g, hsame, rfl, h'⟩
    · exact absurd rfl h'.primary_ne_not
    · obtain rfl := (List.cons.inj hsame).2
      rw [ih h']
  | factor h ih =>
    rcases h'.term_cases with h' | ⟨xs, ys, _, _, hsame, _, hxs, _⟩
    · exact ih h'
    · exact absurd hsame ((h.lacks (.inl rfl)).ne_parted hxs.balanced)
  | and hxs hys ih ih' =>
    rcases h'.term_cases with h' | ⟨xs', ys', g, g', hsame, rfl, hxs', hys'⟩
    · exact absurd rfl ((h'.lacks (.inl rfl)).ne_parted hxs.balanced)
    · obtain ⟨rfl, rfl⟩ := hxs.balanced.separator_unique hxs'.balanced (hys.lacks (.inl rfl))
        (hys'.lacks (.inl rfl)) hsame
      rw [ih hxs', ih' hys']
  | term h ih =>
    rcases h'.condition_cases with h' | ⟨xs, ys, _, _, hsame, _, hxs, _⟩
    · exact ih h'
    · exact absurd hsame ((h.lacks rfl).ne_parted hxs.balanced)
  | or hxs hys ih ih' =>
    rcases h'.condition_cases with h' | ⟨xs', ys', g, g', hsame, rfl, hxs', hys'⟩
    · exact absurd rfl ((h'.lacks rfl).ne_parted hxs.balanced)
    · obtain ⟨rfl, rfl⟩ := hxs.balanced.separator_unique hxs'.balanced (hys.lacks rfl)
        (hys'.lacks rfl) hsame
      rw [ih hxs', ih' hys']

end Unique

end ShapeSql.Sql.Grammar
