import Mathlib.Data.List.Infix
import ShapeSql.Bind.Value

namespace ShapeSql

/-- What a pattern is made of. -/
inductive PatternItem
  | run
  | one
  | set (members : List Char)
  | char (c : Char)
  deriving Repr, DecidableEq

namespace PatternItem

/-- Whether one of the members of a set, characters and ranges of characters, is the character. -/
def lists (c : Char) : List Char → Bool
  | low :: '-' :: high :: members => (low ≤ c && c ≤ high) || lists c members
  | member :: members => member == c || lists c members
  | [] => false

/-- The items of a pattern. A bracket opens a set, which the next closing bracket ends; what stands in
the set so far is kept in `opened`, the last character first. A set that is never closed has no members. -/
def ofPattern (opened : Option (List Char)) : List Char → List PatternItem
  | [] => if opened.isSome then [.set []] else []
  | c :: pattern =>
    match opened with
    | some members =>
      if c = ']' then .set members.reverse :: ofPattern none pattern
      else ofPattern (some (c :: members)) pattern
    | none =>
      if c = '%' then .run :: ofPattern none pattern
      else if c = '_' then .one :: ofPattern none pattern
      else if c = '[' then ofPattern (some []) pattern
      else .char c :: ofPattern none pattern

/-- Whether the item stands for the character. A circumflex at its start excludes what a set lists. -/
def reads (c : Char) : PatternItem → Bool
  | .run => false
  | .one => true
  | .set ('^' :: members) => !lists c members
  | .set members => lists c members
  | .char own => own == c

/-- Whether the items read the whole text. The characters that a run takes are tried in every number. -/
def matchAll : List PatternItem → List Char → Bool
  | [], text => text.isEmpty
  | .run :: items, text => text.tails.any (matchAll items)
  | _ :: _, [] => false
  | item :: items, c :: text => item.reads c && matchAll items text

/-- How the pattern of a text has one of its characters. -/
def escaped (c : Char) : PatternItem := if c = '%' ∨ c = '_' ∨ c = '[' then .set [c] else .char c

end PatternItem

/-- Whether the text is like the pattern. -/
def isLike (pattern text : String) : Bool :=
  PatternItem.matchAll (PatternItem.ofPattern none pattern.toList) text.toList

/-- The subject has the text at the place of the mode: at its start, at its end or anywhere. -/
def LikeMode.Places (text subject : String) : LikeMode → Prop
  | .startsWith => text.toList <+: subject.toList
  | .endsWith => text.toList <:+ subject.toList
  | .contains => text.toList <:+: subject.toList

namespace PatternItem

section Reading

theorem ofPattern_run (pattern : List Char) :
    ofPattern none ('%' :: pattern) = .run :: ofPattern none pattern := rfl

/-- An escaped character is one item, whatever comes after it. -/
theorem ofPattern_likeEscape (c : Char) (pattern : List Char) :
    ofPattern none (likeEscape c ++ pattern) = escaped c :: ofPattern none pattern := by
  unfold likeEscape escaped
  by_cases hwild : c = '%' ∨ c = '_' ∨ c = '['
  · have hclosing : c ≠ ']' := by rcases hwild with rfl | rfl | rfl <;> decide
    rw [if_pos hwild, if_pos hwild]
    simp [ofPattern, hclosing]
  · rw [if_neg hwild, if_neg hwild]
    simp only [not_or] at hwild
    simp [ofPattern, hwild]

theorem ofPattern_escaped (text pattern : List Char) :
    ofPattern none (text.flatMap likeEscape ++ pattern) =
      text.map escaped ++ ofPattern none pattern := by
  induction text with
  | nil => rfl
  | cons c text ih =>
    rw [List.flatMap_cons, List.append_assoc, ofPattern_likeEscape, ih, List.map_cons, List.cons_append]

end Reading

section Matching

theorem reads_escaped (c d : Char) : (escaped c).reads d = (c == d) := by
  unfold escaped
  split
  · rename_i hwild
    rcases hwild with rfl | rfl | rfl <;> simp [reads, lists]
  · rfl

theorem matchAll_nil (text : List Char) : matchAll [] text = true ↔ text = [] :=
  List.isEmpty_iff

theorem matchAll_run (items : List PatternItem) (text : List Char) :
    matchAll (.run :: items) text = true ↔
      ∃ before after, text = before ++ after ∧ matchAll items after = true := by
  rw [matchAll, List.any_eq_true]
  simp only [List.mem_tails, List.IsSuffix]
  constructor
  · rintro ⟨after, ⟨before, rfl⟩, hmatch⟩
    exact ⟨before, after, rfl, hmatch⟩
  · rintro ⟨before, after, rfl, hmatch⟩
    exact ⟨after, ⟨before, rfl⟩, hmatch⟩

/-- At the end of a pattern a run takes what is left. -/
theorem matchAll_last_run (text : List Char) : matchAll [.run] text = true := by
  rw [matchAll_run]
  exact ⟨text, [], (List.append_nil _).symm, rfl⟩

theorem matchAll_escaped_cons (c d : Char) (items : List PatternItem) (text : List Char) :
    matchAll (escaped c :: items) (d :: text) = (c == d && matchAll items text) := by
  rw [← reads_escaped]
  unfold escaped
  split <;> rfl

theorem matchAll_escaped_nil (c : Char) (items : List PatternItem) :
    matchAll (escaped c :: items) [] = false := by
  unfold escaped
  split <;> rfl

/-- The items of escaped characters read these characters and leave the rest to the items after them. -/
theorem matchAll_escaped (own : List Char) (items : List PatternItem) (text : List Char) :
    matchAll (own.map escaped ++ items) text = true ↔
      ∃ after, text = own ++ after ∧ matchAll items after = true := by
  induction own generalizing text with
  | nil => simp
  | cons c own ih =>
    rw [List.map_cons, List.cons_append]
    cases text with
    | nil => simp [matchAll_escaped_nil]
    | cons d text =>
      rw [matchAll_escaped_cons, Bool.and_eq_true, beq_iff_eq, ih]
      constructor
      · rintro ⟨rfl, after, rfl, hmatch⟩
        exact ⟨after, rfl, hmatch⟩
      · rintro ⟨after, htext, hmatch⟩
        rw [List.cons_append, List.cons.injEq] at htext
        exact ⟨htext.1.symm, after, htext.2, hmatch⟩

end Matching

end PatternItem

open PatternItem

theorem isLike_startsWith (text subject : String) :
    isLike (likePattern .startsWith text) subject = true ↔ text.toList <+: subject.toList := by
  have hitems : ofPattern none (likePattern .startsWith text).toList =
      text.toList.map escaped ++ [.run] := by
    rw [likePattern, String.toList_ofList, ofPattern_escaped, ofPattern_run]
    rfl
  rw [isLike, hitems, matchAll_escaped]
  constructor
  · rintro ⟨after, hsubject, -⟩
    exact ⟨after, hsubject.symm⟩
  · rintro ⟨after, hsubject⟩
    exact ⟨after, hsubject.symm, matchAll_last_run after⟩

theorem isLike_contains (text subject : String) :
    isLike (likePattern .contains text) subject = true ↔ text.toList <:+: subject.toList := by
  have hitems : ofPattern none (likePattern .contains text).toList =
      .run :: (text.toList.map escaped ++ [.run]) := by
    rw [likePattern, String.toList_ofList, List.cons_append, ofPattern_run, ofPattern_escaped,
      ofPattern_run]
    rfl
  rw [isLike, hitems, matchAll_run]
  constructor
  · rintro ⟨before, rest, hsubject, hrest⟩
    obtain ⟨after, rfl, -⟩ := (matchAll_escaped _ _ _).mp hrest
    exact ⟨before, after, by rw [hsubject, List.append_assoc]⟩
  · rintro ⟨before, after, hsubject⟩
    rw [List.append_assoc] at hsubject
    exact ⟨before, _, hsubject.symm, (matchAll_escaped _ _ _).mpr ⟨after, rfl, matchAll_last_run after⟩⟩

theorem isLike_endsWith (text subject : String) :
    isLike (likePattern .endsWith text) subject = true ↔ text.toList <:+ subject.toList := by
  have hitems : ofPattern none (likePattern .endsWith text).toList =
      .run :: (text.toList.map escaped ++ []) := by
    have hescaped := ofPattern_escaped text.toList []
    rw [List.append_nil] at hescaped
    rw [likePattern, String.toList_ofList, ofPattern_run, hescaped]
    rfl
  rw [isLike, hitems, matchAll_run]
  constructor
  · rintro ⟨before, rest, hsubject, hrest⟩
    obtain ⟨after, rfl, hafter⟩ := (matchAll_escaped _ _ _).mp hrest
    obtain rfl := (matchAll_nil after).mp hafter
    exact ⟨before, by rw [hsubject, List.append_nil]⟩
  · rintro ⟨before, hsubject⟩
    exact ⟨before, _, hsubject.symm, (matchAll_escaped _ _ _).mpr ⟨[], (List.append_nil _).symm, rfl⟩⟩

/-- A subject is like the pattern of a text exactly where it has the text at the place of the mode. -/
theorem isLike_likePattern (mode : LikeMode) (text subject : String) :
    isLike (likePattern mode text) subject = true ↔ mode.Places text subject := by
  cases mode with
  | startsWith => exact isLike_startsWith text subject
  | contains => exact isLike_contains text subject
  | endsWith => exact isLike_endsWith text subject

example : isLike (likePattern .contains "[%]_") "a[%]_b" = true := by decide +kernel

example : isLike (likePattern .endsWith "5%") "50" = false := by decide +kernel

end ShapeSql
