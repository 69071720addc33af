import ShapeSql.Path
import ShapeSql.Proofs.Text.Cuts

namespace ShapeSql

namespace Path

open Text

/-- A step that is read as it is printed: not empty, without a blank at either end, without dots. -/
structure PlainStep (step : String) : Prop where
  nonempty : step.toList ≠ []
  trimmed : Trimmed step.toList
  undotted : '.' ∉ step.toList

/-- All steps are plain. -/
def Plain (p : Path) : Prop := ∀ step ∈ p.steps, PlainStep step

section Reading

/-- The step that a piece between dots is read as, none if it is blank. -/
def stepOf? (piece : List Char) : Option String :=
  if (trimChars piece).isEmpty then none else some (String.ofList (trimChars piece))

theorem steps_parse (text : String) : (parse text).steps = (splitAtChar '.' text.toList).filterMap stepOf? := by
  rw [parse, List.filterMap_map]
  rfl

/-- What is read from a piece without dots is a plain step. -/
theorem plainStep_of_stepOf? {piece : List Char} {step : String} (hpiece : '.' ∉ piece)
    (h : stepOf? piece = some step) : PlainStep step := by
  unfold stepOf? at h
  split at h
  · cases h
  · rename_i hsome
    cases h
    have hchars : (String.ofList (trimChars piece)).toList = trimChars piece := String.toList_ofList
    refine ⟨?_, ?_, ?_⟩
    · rw [hchars]
      exact fun hnone => hsome (List.isEmpty_iff.mpr hnone)
    · rw [hchars]
      exact trimmed_trimChars piece
    · rw [hchars]
      exact fun hdot => hpiece ((trimChars_isInfix piece).subset hdot)

/-- A plain step is read from its characters. -/
theorem stepOf?_of_plainStep {step : String} (h : PlainStep step) : stepOf? step.toList = some step := by
  have htrimmed : trimChars step.toList = step.toList := by
    have hpadded := trimChars_padded allBlank_nil h.trimmed allBlank_nil
    rwa [List.nil_append, List.append_nil] at hpadded
  have hsome : ¬step.toList.isEmpty = true := fun hnone => h.nonempty (List.isEmpty_iff.mp hnone)
  rw [stepOf?, htrimmed, if_neg hsome, String.ofList_toList]

/-- Whatever the text, the path that is read from it is plain. -/
theorem plain_parse (text : String) : (parse text).Plain := by
  intro step hstep
  rw [steps_parse] at hstep
  obtain ⟨piece, hpiece, hread⟩ := List.mem_filterMap.mp hstep
  exact plainStep_of_stepOf? (not_mem_of_mem_splitAtChar hpiece) hread

end Reading

section Printing

variable {p q : Path}

theorem toList_display (p : Path) : p.display.toList = List.intercalate ['.'] (p.steps.map String.toList) := by
  rw [display, String.toList_intercalate]
  rfl

/-- A plain path is read back from its printed form. -/
theorem parse_display (h : p.Plain) : parse p.display = p := by
  have hsteps : (parse p.display).steps = p.steps := by
    by_cases hroot : p.steps = []
    · rw [steps_parse, toList_display, hroot]
      rfl
    · have hpieces : splitAtChar '.' p.display.toList = p.steps.map String.toList := by
        rw [toList_display]
        refine splitAtChar_intercalate (mt List.map_eq_nil_iff.mp hroot) ?_
        exact List.forall_mem_map.mpr fun step hstep => (h step hstep).undotted
      have hread : ∀ step ∈ p.steps, (stepOf? ∘ String.toList) step = some step :=
        fun step hstep => stepOf?_of_plainStep (h step hstep)
      rw [steps_parse, hpieces, List.filterMap_map, List.filterMap_congr hread, List.filterMap_some]
  exact congrArg Path.mk hsteps

theorem parse_display_iff (p : Path) : parse p.display = p ↔ p.Plain := by
  constructor
  · intro h
    rw [← h]
    exact plain_parse p.display
  · exact parse_display

/-- Plain paths are told apart by their printed forms. -/
theorem display_inj (hp : p.Plain) (hq : q.Plain) (h : p.display = q.display) : p = q :=
  calc
    p = parse p.display := (parse_display hp).symm
    _ = parse q.display := congrArg parse h
    _ = q := parse_display hq

end Printing

section Below

theorem dropSteps_eq_some_iff (base steps rest : List String) :
    dropSteps base steps = some rest ↔ steps = base ++ rest := by
  induction base generalizing steps with
  | nil => simp [dropSteps]
  | cons b base ih =>
    cases steps with
    | nil => simp [dropSteps]
    | cons step steps =>
      rw [dropSteps, List.cons_append, List.cons.injEq]
      by_cases hsame : b = step
      · rw [if_pos hsame, ih, and_iff_right hsame.symm]
      · rw [if_neg hsame]
        exact iff_of_false nofun fun h => hsame h.1.symm

/-- The way from one path down to another is what the first lacks to the second. -/
theorem below?_eq_some_iff (p base rest : Path) : p.below? base = some rest ↔ p = base.concat rest := by
  obtain ⟨steps⟩ := p
  obtain ⟨restSteps⟩ := rest
  rw [below?, Option.map_eq_some_iff, concat, Path.mk.injEq, ← dropSteps_eq_some_iff]
  constructor
  · rintro ⟨found, hfound, hrest⟩
    cases hrest
    exact hfound
  · exact fun h => ⟨restSteps, h, rfl⟩

end Below

/-- Printed paths are faithful keys. What is read from any text is a plain path, and read again from its
own printed form; exactly the plain paths are read back, so no two of them print alike; and the way from one
path down to another is found exactly where the one continues the other, step by step as they are spelled. -/
theorem display_faithful :
    (∀ text, (parse text).Plain ∧ parse (parse text).display = parse text) ∧
    (∀ p : Path, parse p.display = p ↔ p.Plain) ∧
    (∀ p q : Path, p.Plain → q.Plain → (p.display = q.display ↔ p = q)) ∧
    ∀ p base rest : Path, p.below? base = some rest ↔ p = base.concat rest := by
  refine ⟨fun text => ⟨plain_parse text, ?_⟩, parse_display_iff, fun p q hp hq => ⟨?_, ?_⟩,
    below?_eq_some_iff⟩
  · exact parse_display (plain_parse text)
  · exact display_inj hp hq
  · exact congrArg display

/-- Two paths that differ by the case of a step, the first read with blanks and a step that is missing. -/
theorem display_faithful_manager :
    parse " Department. .Manager" = ⟨["Department", "Manager"]⟩ ∧
    parse "department.Manager" = ⟨["department", "Manager"]⟩ ∧
    display ⟨["Department", "Manager"]⟩ ≠ display ⟨["department", "Manager"]⟩ ∧
    below? ⟨["Department", "Manager"]⟩ ⟨["Department"]⟩ = some ⟨["Manager"]⟩ := by
  obtain ⟨hread, _, hinj, hbelow⟩ := display_faithful
  have hupper : parse " Department. .Manager" = ⟨["Department", "Manager"]⟩ := by decide
  have hlower : parse "department.Manager" = ⟨["department", "Manager"]⟩ := by decide
  have hplain : Plain ⟨["Department", "Manager"]⟩ := hupper ▸ (hread _).1
  have hplain' : Plain ⟨["department", "Manager"]⟩ := hlower ▸ (hread _).1
  refine ⟨hupper, hlower, mt (hinj _ _ hplain hplain').mp (by decide), ?_⟩
  exact (hbelow _ _ _).mpr rfl

end Path

end ShapeSql
