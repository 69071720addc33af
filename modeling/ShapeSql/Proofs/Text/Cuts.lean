import Mathlib.Data.List.Infix
import Mathlib.Data.List.TakeWhile
import ShapeSql.Text.Blank

namespace ShapeSql.Text

section Trimming

/-- Nothing but blanks. -/
def AllBlank (cs : List Char) : Prop := ∀ c ∈ cs, isBlank c = true

/-- No blank at either end. -/
structure Trimmed (cs : List Char) : Prop where
  first : ∀ c ∈ cs.head?, isBlank c = false
  last : ∀ c ∈ cs.getLast?, isBlank c = false

variable {before after cs : List Char}

theorem allBlank_nil : AllBlank [] := List.forall_mem_nil _

theorem AllBlank.append (h : AllBlank before) (h' : AllBlank after) : AllBlank (before ++ after) :=
  List.forall_mem_append.mpr ⟨h, h'⟩

theorem AllBlank.not_mem (h : AllBlank cs) {c : Char} (hc : isBlank c = false) : c ∉ cs := by
  intro hmem
  rw [h c hmem] at hc
  cases hc

theorem trimStart_of_head (h : ∀ c ∈ cs.head?, isBlank c = false) : trimStart cs = cs := by
  cases cs with
  | nil => rfl
  | cons c cs => exact List.dropWhile_cons_of_neg (by simp [h c rfl])

/-- What stands between blanks is left as it is. -/
theorem trimChars_padded (hbefore : AllBlank before) (h : Trimmed cs) (hafter : AllBlank after) :
    trimChars (before ++ cs ++ after) = cs := by
  have hstart : trimStart (before ++ cs ++ after) = trimStart (cs ++ after) := by
    rw [List.append_assoc]
    exact List.dropWhile_append_of_pos hbefore
  rw [trimChars, hstart]
  cases cs with
  | nil =>
    have hnone : trimStart after = [] := List.dropWhile_eq_nil_iff.mpr hafter
    rw [List.nil_append, hnone]
    rfl
  | cons c cs =>
    have hend : AllBlank after.reverse := fun d hd => hafter d (List.mem_reverse.mp hd)
    have hlast : ∀ d ∈ (c :: cs).reverse.head?, isBlank d = false := by
      rw [List.head?_reverse]
      exact h.last
    have hfirst : trimStart (c :: cs ++ after) = c :: cs ++ after := trimStart_of_head h.first
    rw [hfirst, trimEnd, List.reverse_append, trimStart, List.dropWhile_append_of_pos hend]
    show (trimStart (c :: cs).reverse).reverse = c :: cs
    rw [trimStart_of_head hlast, List.reverse_reverse]

/-- Every text is its trimmed part between blanks. -/
theorem exists_padding (cs : List Char) : ∃ before after, AllBlank before ∧ AllBlank after ∧
    cs = before ++ trimChars cs ++ after ∧ Trimmed (trimChars cs) := by
  have hblank : ∀ ds : List Char, AllBlank (ds.takeWhile isBlank) := fun ds d hd =>
    List.mem_takeWhile_imp hd
  have hhead : ∀ (ds : List Char), ∀ c ∈ (ds.dropWhile isBlank).head?, isBlank c = false := by
    intro ds c hc
    simpa [Option.mem_def.mp hc] using List.head?_dropWhile_not isBlank ds
  have hsplit : cs.takeWhile isBlank ++ trimStart cs = cs := List.takeWhile_append_dropWhile
  have hends : trimEnd (trimStart cs) ++ ((trimStart cs).reverse.takeWhile isBlank).reverse =
      trimStart cs := by
    rw [trimEnd, ← List.reverse_append]
    exact List.reverse_eq_iff.mpr List.takeWhile_append_dropWhile
  refine ⟨_, ((trimStart cs).reverse.takeWhile isBlank).reverse, hblank cs, ?_, ?_, ?_, ?_⟩
  · exact fun c hc => hblank _ c (List.mem_reverse.mp hc)
  · rw [trimChars, List.append_assoc, hends, hsplit]
  · intro c hc
    refine hhead cs c ?_
    rw [trimChars] at hc
    show c ∈ (trimStart cs).head?
    rw [← hends, List.head?_append, Option.mem_def.mp hc]
    rfl
  · intro c hc
    rw [trimChars, trimEnd, List.getLast?_reverse] at hc
    exact hhead _ c hc

theorem trimChars_isInfix (cs : List Char) : trimChars cs <:+: cs := by
  obtain ⟨before, after, _, _, hcs, _⟩ := exists_padding cs
  exact ⟨before, after, hcs.symm⟩

theorem trimmed_trimChars (cs : List Char) : Trimmed (trimChars cs) := by
  obtain ⟨_, _, _, _, _, h⟩ := exists_padding cs
  exact h

/-- Blanks around a text do not matter. -/
theorem trimChars_around (hbefore : AllBlank before) (hafter : AllBlank after) (cs : List Char) :
    trimChars (before ++ cs ++ after) = trimChars cs := by
  obtain ⟨first, last, hfirst, hlast, hcs, htrimmed⟩ := exists_padding cs
  have hall : before ++ cs ++ after = (before ++ first) ++ trimChars cs ++ (last ++ after) := by
    conv_lhs => rw [hcs]
    simp only [List.append_assoc]
  rw [hall, trimChars_padded (hbefore.append hfirst) htrimmed (hlast.append hafter)]

theorem trimChars_trimChars (cs : List Char) : trimChars (trimChars cs) = trimChars cs := by
  have hself : trimChars ([] ++ trimChars cs ++ []) = trimChars cs :=
    trimChars_padded allBlank_nil (trimmed_trimChars cs) allBlank_nil
  rwa [List.nil_append, List.append_nil] at hself

theorem trimChars_eq_nil_iff : trimChars cs = [] ↔ AllBlank cs := by
  constructor
  · intro h
    obtain ⟨before, after, hbefore, hafter, hcs, _⟩ := exists_padding cs
    rw [hcs, h, List.append_nil]
    exact hbefore.append hafter
  · intro h
    have hpadded : trimChars (cs ++ [] ++ []) = [] := trimChars_padded h ⟨nofun, nofun⟩ allBlank_nil
    rwa [List.append_nil, List.append_nil] at hpadded

end Trimming

section Cutting

variable {sep : Char} {cs before : List Char}

theorem cutAtChar_of_not_mem (h : sep ∉ cs) : cutAtChar sep cs = (cs, none) := by
  induction cs with
  | nil => rfl
  | cons c cs ih =>
    rw [List.mem_cons, not_or] at h
    rw [cutAtChar, if_neg (Ne.symm h.1), ih h.2]

theorem cutAtChar_append (h : sep ∉ before) (after : List Char) :
    cutAtChar sep (before ++ sep :: after) = (before, some after) := by
  induction before with
  | nil => rw [List.nil_append, cutAtChar, if_pos rfl]
  | cons c before ih =>
    rw [List.mem_cons, not_or] at h
    rw [List.cons_append, cutAtChar, if_neg (Ne.symm h.1), ih h.2]

/-- What stands in front of a character that a text has. -/
theorem takeWhile_append_of_not_mem (h : sep ∉ before) (after : List Char) :
    (before ++ sep :: after).takeWhile (· != sep) = before := by
  have hpassed : ∀ c ∈ before, (c != sep) = true := by
    intro c hc
    rw [bne_iff_ne]
    rintro rfl
    exact h hc
  rw [List.takeWhile_append_of_pos hpassed, List.takeWhile_cons_of_neg (by simp), List.append_nil]

theorem takeWhile_of_not_mem (h : sep ∉ cs) : cs.takeWhile (· != sep) = cs := by
  rw [List.takeWhile_eq_self_iff]
  intro c hc
  rw [bne_iff_ne]
  rintro rfl
  exact h hc

theorem splitAtChar_eq_splitOn (sep : Char) (cs : List Char) : splitAtChar sep cs = cs.splitOn sep := by
  induction cs with
  | nil => rfl
  | cons c cs ih =>
    rw [splitAtChar, List.splitOn_cons_eq_if_modifyHead, ih]
    by_cases hsep : c = sep
    · rw [if_pos hsep, if_pos (beq_iff_eq.mpr hsep)]
    · rw [if_neg hsep, if_neg (mt beq_iff_eq.mp hsep)]
      cases hpieces : cs.splitOn sep with
      | nil => exact absurd hpieces (List.splitOn_ne_nil sep cs)
      | cons piece pieces => rfl

/-- No piece has the separator in it. -/
theorem not_mem_of_mem_splitAtChar {piece : List Char} (h : piece ∈ splitAtChar sep cs) :
    sep ∉ piece := by
  induction cs generalizing piece with
  | nil =>
    rw [List.mem_singleton.mp h]
    exact List.not_mem_nil
  | cons c cs ih =>
    rw [splitAtChar] at h
    split at h
    · rcases List.mem_cons.mp h with rfl | hlater
      · exact List.not_mem_nil
      · exact ih hlater
    · rename_i hother
      split at h
      · rw [List.mem_singleton.mp h, List.mem_singleton]
        exact Ne.symm hother
      · rename_i first rest hpieces
        rw [hpieces, List.forall_mem_cons] at ih
        rcases List.mem_cons.mp h with rfl | hlater
        · rw [List.mem_cons, not_or]
          exact ⟨Ne.symm hother, ih.1⟩
        · exact ih.2 piece hlater

/-- Pieces that do not have the separator in them are taken apart again. -/
theorem splitAtChar_intercalate {pieces : List (List Char)} (hne : pieces ≠ [])
    (h : ∀ piece ∈ pieces, sep ∉ piece) : splitAtChar sep (List.intercalate [sep] pieces) = pieces := by
  rw [splitAtChar_eq_splitOn]
  exact List.splitOn_intercalate sep h hne

end Cutting

section Arrows

def arrow : List Char := ['-', '>']

/-- No arrow is in the text. -/
def ArrowFree (cs : List Char) : Prop := ¬arrow <:+: cs

variable {c : Char} {cs before after : List Char}

theorem arrowFree_nil : ArrowFree [] := by
  intro h
  cases List.infix_nil.mp h

theorem arrowFree_cons : ArrowFree (c :: cs) ↔ ¬(c = '-' ∧ cs.head? = some '>') ∧ ArrowFree cs := by
  have hprefix : arrow <+: c :: cs ↔ c = '-' ∧ cs.head? = some '>' := by
    cases cs with
    | nil => simp [arrow, List.cons_prefix_cons]
    | cons d cs => simp [arrow, List.cons_prefix_cons, eq_comm]
  rw [ArrowFree, List.infix_cons_iff, not_or, hprefix]
  rfl

theorem ArrowFree.of_infix (h : ArrowFree cs) (hpart : before <:+: cs) : ArrowFree before :=
  fun hnot => h (hnot.trans hpart)

/-- No arrow comes about where the second text does not start with a head. -/
theorem ArrowFree.append (h : ArrowFree before) (h' : ArrowFree after)
    (hhead : after.head? ≠ some '>') : ArrowFree (before ++ after) := by
  induction before with
  | nil => exact h'
  | cons c before ih =>
    rw [arrowFree_cons] at h
    rw [List.cons_append, arrowFree_cons]
    refine ⟨?_, ih h.2⟩
    rintro ⟨hc, hnext⟩
    cases before with
    | nil => exact hhead hnext
    | cons d before => exact h.1 ⟨hc, hnext⟩

/-- No arrow comes about behind a character that is not its shaft. -/
theorem ArrowFree.cons (h : ArrowFree cs) (hc : c ≠ '-') : ArrowFree (c :: cs) :=
  arrowFree_cons.mpr ⟨fun hnot => hc hnot.1, h⟩

theorem AllBlank.arrowFree_append (h : AllBlank before) (h' : ArrowFree after) :
    ArrowFree (before ++ after) := by
  induction before with
  | nil => exact h'
  | cons c before ih =>
    have hc : c ≠ '-' := by
      rintro rfl
      cases h '-' List.mem_cons_self
    exact (ih fun d hd => h d (List.mem_cons_of_mem c hd)).cons hc

theorem AllBlank.head?_ne (h : AllBlank cs) (hc : isBlank c = false) : cs.head? ≠ some c :=
  fun hhead => h.not_mem hc (List.mem_of_mem_head? hhead)

/-- The pieces of a text between its arrows. -/
structure ArrowPieces (text : List Char) (pieces : List (List Char)) : Prop where
  joined : List.intercalate arrow pieces = text
  nonempty : pieces ≠ []
  free : ∀ piece ∈ pieces, ArrowFree piece

theorem splitAtArrow_cons (h : ¬(c = '-' ∧ cs.head? = some '>')) :
    splitAtArrow (c :: cs) = match splitAtArrow cs with
      | [] => [[c]]
      | piece :: pieces => (c :: piece) :: pieces := by
  have hcase : ∀ rest, c = '-' → cs = '>' :: rest → False := by
    rintro rest rfl rfl
    exact h ⟨rfl, rfl⟩
  exact splitAtArrow.eq_3 c cs hcase

theorem splitAtArrow_of_free (h : ArrowFree cs) : splitAtArrow cs = [cs] := by
  induction cs with
  | nil => rfl
  | cons c cs ih =>
    rw [arrowFree_cons] at h
    rw [splitAtArrow_cons h.1, ih h.2]

theorem splitAtArrow_append (h : ArrowFree before) (after : List Char) :
    splitAtArrow (before ++ (arrow ++ after)) = before :: splitAtArrow after := by
  induction before with
  | nil => rfl
  | cons c before ih =>
    rw [arrowFree_cons] at h
    have hnone : ¬(c = '-' ∧ (before ++ (arrow ++ after)).head? = some '>') := by
      cases before with
      | nil => simp [arrow]
      | cons d before => exact h.1
    rw [List.cons_append, splitAtArrow_cons hnone, ih h.2]

theorem splitAtArrow_intercalate {pieces : List (List Char)} (hne : pieces ≠ [])
    (h : ∀ piece ∈ pieces, ArrowFree piece) : splitAtArrow (List.intercalate arrow pieces) = pieces := by
  induction pieces with
  | nil => exact absurd rfl hne
  | cons piece pieces ih =>
    rw [List.forall_mem_cons] at h
    cases pieces with
    | nil => rw [List.intercalate_singleton, splitAtArrow_of_free h.1]
    | cons next pieces =>
      rw [List.intercalate_cons_cons, List.append_assoc, splitAtArrow_append h.1,
        ih (List.cons_ne_nil _ _) h.2]

theorem arrowPieces_splitAtArrow (cs : List Char) : ArrowPieces cs (splitAtArrow cs) := by
  induction cs using splitAtArrow.induct with
  | case1 => exact ⟨rfl, List.cons_ne_nil _ _, List.forall_mem_singleton.mpr arrowFree_nil⟩
  | case2 rest ih =>
    rw [splitAtArrow.eq_2]
    obtain ⟨piece, pieces, hsplit⟩ := List.exists_cons_of_ne_nil ih.nonempty
    rw [hsplit] at ih ⊢
    refine ⟨?_, List.cons_ne_nil _ _, List.forall_mem_cons.mpr ⟨arrowFree_nil, ih.free⟩⟩
    rw [List.intercalate_cons_cons, ih.joined]
    rfl
  | case3 c rest hrest hnil ih => exact absurd hnil ih.nonempty
  | case4 c rest hrest piece pieces hsplit ih =>
    have hnone : ¬(c = '-' ∧ rest.head? = some '>') := by
      rintro ⟨rfl, hhead⟩
      obtain ⟨tail, rfl⟩ : ∃ tail, rest = '>' :: tail := by
        cases rest with
        | nil => cases hhead
        | cons d rest =>
          cases hhead
          exact ⟨rest, rfl⟩
      exact hrest tail rfl rfl
    rw [splitAtArrow_cons hnone, hsplit]
    rw [hsplit] at ih
    obtain ⟨hpiece, hpieces⟩ := List.forall_mem_cons.mp ih.free
    have hjoined : List.intercalate arrow ((c :: piece) :: pieces) = c :: rest := by
      rw [← ih.joined]
      cases pieces with
      | nil => simp
      | cons next pieces => simp
    refine ⟨hjoined, List.cons_ne_nil _ _, List.forall_mem_cons.mpr ⟨?_, hpieces⟩⟩
    refine arrowFree_cons.mpr ⟨?_, hpiece⟩
    rintro ⟨hc, hhead⟩
    refine hnone ⟨hc, ?_⟩
    rw [← ih.joined]
    cases pieces with
    | nil => rw [List.intercalate_singleton, hhead]
    | cons next pieces => rw [List.intercalate_cons_cons, List.append_assoc, List.head?_append, hhead]; rfl

/-- A text has one sequence of pieces. -/
theorem ArrowPieces.eq {text : List Char} {pieces : List (List Char)} (h : ArrowPieces text pieces) :
    pieces = splitAtArrow text := by
  rw [← h.joined, splitAtArrow_intercalate h.nonempty h.free]

end Arrows

end ShapeSql.Text
