import Mathlib.Data.List.Basic
import ShapeSql.Sql.Render

namespace ShapeSql.Sql

inductive Token where
  | opening
  | closing
  /-- A keyword, an operator, a comma or a dot. -/
  | word (text : String)
  | name (text : String)
  | literal (text : String)
  | number (value : Int)
  | variable (text : String)
  deriving DecidableEq, Repr

namespace Token

/-- The token of characters that nothing parts, the last one first. -/
def ofRun : List Char → List Token
  | [] => []
  | run => [.word (String.ofList run.reverse)]

/-- The tokens of a word; `run` are the characters since the last cut. -/
def cut (run : List Char) : List Char → List Token
  | [] => ofRun run
  | c :: rest =>
    match c with
    | ' ' => ofRun run ++ cut [] rest
    | '(' => ofRun run ++ .opening :: cut [] rest
    | ')' => ofRun run ++ .closing :: cut [] rest
    | ',' => ofRun run ++ .word "," :: cut [] rest
    | '.' => ofRun run ++ .word "." :: cut [] rest
    | c => cut (c :: run) rest

/-- How deep in parentheses a sequence ends that starts at a depth; none if it closes more than is open. -/
def depthAfter : Nat → List Token → Option Nat
  | d, [] => some d
  | d, .opening :: ts => depthAfter (d + 1) ts
  | 0, .closing :: _ => none
  | d + 1, .closing :: ts => depthAfter d ts
  | d, _ :: ts => depthAfter d ts

/-- The tokens at depth zero, parentheses aside, of a sequence that starts at a depth. -/
def surface : Nat → List Token → List Token
  | _, [] => []
  | d, .opening :: ts => surface (d + 1) ts
  | d, .closing :: ts => surface (d - 1) ts
  | 0, t :: ts => t :: surface 0 ts
  | d + 1, _ :: ts => surface (d + 1) ts

end Token

/-- The tokens of a lexeme. What is quoted is one token, whatever is in it. -/
def Lexeme.tokens : Lexeme → List Token
  | .word text => Token.cut [] text.toList
  | .name text => [.name text]
  | .literal text => [.literal text]
  | .number value => [.number value]
  | .atName text => [.variable text]

def tokensOf (lexemes : List Lexeme) : List Token := lexemes.flatMap Lexeme.tokens

/-- Each parenthesis has its counterpart. -/
def Balanced (ts : List Token) : Prop := Token.depthAfter 0 ts = some 0

instance (ts : List Token) : Decidable (Balanced ts) :=
  inferInstanceAs (Decidable (Token.depthAfter 0 ts = some 0))

def parenthesized (ts : List Token) : List Token := .opening :: (ts ++ [.closing])

@[simp] theorem tokensOf_nil : tokensOf [] = [] := rfl

@[simp] theorem tokensOf_cons (l : Lexeme) (w : List Lexeme) :
    tokensOf (l :: w) = l.tokens ++ tokensOf w := List.flatMap_cons

@[simp] theorem tokensOf_append (v w : List Lexeme) :
    tokensOf (v ++ w) = tokensOf v ++ tokensOf w := List.flatMap_append

/-- A word that ends by opening a parenthesis, and the one that closes it. -/
theorem tokensOf_enclosed {first : String} (before : List Token)
    (h : (Lexeme.word first).tokens = before ++ [.opening]) (w : List Lexeme) :
    tokensOf (.word first :: w ++ [.word ")"]) = before ++ parenthesized (tokensOf w) := by
  have hlast : tokensOf [.word ")"] = [.closing] := rfl
  rw [List.cons_append, tokensOf_cons, tokensOf_append, h, hlast, List.append_assoc]
  rfl

theorem tokensOf_separated (separator : String) (w : List Lexeme) (items : List (List Lexeme)) :
    tokensOf (separated separator (w :: items)) =
      tokensOf w ++ items.flatMap fun item => (Lexeme.word separator).tokens ++ tokensOf item := by
  induction items generalizing w with
  | nil => simp [separated]
  | cons item items ih =>
    have hrest := ih item
    rw [separated] at hrest
    rw [separated, List.intercalate_cons_cons, tokensOf_append, tokensOf_append, hrest,
      tokensOf_cons, tokensOf_nil, List.append_nil, List.flatMap_cons, List.append_assoc,
      List.append_assoc]

example : tokensOf [.name "Id", .word " NOT IN (", .number 1, .word ")"] =
    .name "Id" :: .word "NOT" :: .word "IN" :: parenthesized [.number 1] := by decide

namespace Token

variable {ts xs ys : List Token} {d e : Nat}

theorem depthAfter_append (d : Nat) (xs ys : List Token) :
    depthAfter d (xs ++ ys) = (depthAfter d xs).bind fun e => depthAfter e ys := by
  induction xs generalizing d with
  | nil => rfl
  | cons t xs ih =>
    cases t with
    | opening => exact ih (d + 1)
    | closing =>
      cases d with
      | zero => rfl
      | succ d => exact ih d
    | _ => cases d <;> exact ih _

/-- What is opened and closed within a sequence does not depend on what is open around it. -/
theorem depthAfter_add (h : depthAfter d ts = some e) (n : Nat) :
    depthAfter (d + n) ts = some (e + n) := by
  induction ts generalizing d with
  | nil =>
    cases h
    rfl
  | cons t ts ih =>
    cases t with
    | opening =>
      have hrest := ih (d := d + 1) h
      rwa [Nat.add_right_comm] at hrest
    | closing =>
      cases d with
      | zero => cases h
      | succ d =>
        rw [Nat.add_right_comm]
        exact ih (d := d) h
    | _ =>
      have hrest : depthAfter d ts = some e := by
        cases d <;> exact h
      cases d <;> cases n <;> exact ih hrest

theorem surface_append (h : depthAfter d xs = some e) (ys : List Token) :
    surface d (xs ++ ys) = surface d xs ++ surface e ys := by
  induction xs generalizing d with
  | nil =>
    cases h
    rfl
  | cons t xs ih =>
    cases t with
    | opening => exact ih (d := d + 1) h
    | closing =>
      cases d with
      | zero => cases h
      | succ d => exact ih (d := d) h
    | _ =>
      cases d with
      | zero => exact congrArg _ (ih (d := 0) h)
      | succ d => exact ih (d := d + 1) h

/-- Within parentheses nothing is on the surface. -/
theorem surface_succ (h : depthAfter d ts = some e) : surface (d + 1) ts = [] := by
  induction ts generalizing d with
  | nil => rfl
  | cons t ts ih =>
    cases t with
    | opening => exact ih (d := d + 1) h
    | closing =>
      cases d with
      | zero => cases h
      | succ d => exact ih (d := d) h
    | _ => cases d <;> exact ih h

end Token

open Token

namespace Balanced

variable {xs ys ts : List Token}

theorem nil : Balanced [] := rfl

theorem append (h : Balanced xs) (h' : Balanced ys) : Balanced (xs ++ ys) := by
  rw [Balanced] at h h'
  rw [Balanced, depthAfter_append, h, Option.bind_some, h']

/-- What follows a balanced start is balanced. -/
theorem right (h : Balanced (xs ++ ys)) (h' : Balanced xs) : Balanced ys := by
  rw [Balanced] at h h'
  rwa [depthAfter_append, h', Option.bind_some] at h

theorem parenthesized (h : Balanced ts) : Balanced (parenthesized ts) := by
  have hinner : depthAfter 1 ts = some 1 := depthAfter_add h 1
  show depthAfter 1 (ts ++ [.closing]) = some 0
  rw [depthAfter_append, hinner]
  rfl

theorem word_cons {s : String} (h : Balanced ts) : Balanced (.word s :: ts) := h

theorem surface_append (h : Balanced xs) (ys : List Token) :
    surface 0 (xs ++ ys) = surface 0 xs ++ surface 0 ys := Token.surface_append h ys

/-- Nothing in parentheses is on the surface. -/
theorem surface_parenthesized (h : Balanced ts) : surface 0 (Sql.parenthesized ts) = [] := by
  have hinner : depthAfter 1 ts = some 1 := depthAfter_add h 1
  have hnone : surface 1 ts = [] := surface_succ h
  show surface 1 (ts ++ [.closing]) = []
  rw [Token.surface_append hinner, hnone]
  rfl

/-- The last separator on the surface parts a sequence in one way. -/
theorem separator_unique {s : String} {xs' ys' : List Token} (hxs : Balanced xs) (hxs' : Balanced xs')
    (hys : .word s ∉ surface 0 ys) (hys' : .word s ∉ surface 0 ys')
    (h : xs ++ .word s :: ys = xs' ++ .word s :: ys') : xs = xs' ∧ ys = ys' := by
  -- A longer first part would have the separator of the shorter one on the surface of what it adds.
  have hlonger : ∀ {xs ys ys' zs : List Token}, Balanced xs → Balanced (xs ++ zs) →
      .word s ∉ surface 0 ys → .word s :: ys = zs ++ .word s :: ys' → zs = [] := by
    intro xs ys ys' zs hxs hlong hys hzs
    cases zs with
    | nil => rfl
    | cons z zs =>
      rw [List.cons_append] at hzs
      obtain ⟨rfl, rfl⟩ := List.cons.inj hzs
      have hbetween : Balanced zs := hlong.right hxs
      rw [hbetween.surface_append] at hys
      exact absurd (List.mem_append_right _ List.mem_cons_self) hys
  rcases List.append_eq_append_iff.mp h with ⟨zs, rfl, hzs⟩ | ⟨zs, rfl, hzs⟩
  · obtain rfl := hlonger hxs hxs' hys hzs
    exact ⟨(List.append_nil xs).symm, (List.cons.inj hzs).2⟩
  · obtain rfl := hlonger hxs' hxs hys' hzs
    exact ⟨List.append_nil xs', (List.cons.inj hzs).2.symm⟩

end Balanced

end ShapeSql.Sql
