import Mathlib.Data.List.Forall2
import ShapeSql.Proofs.Text.Cuts
import ShapeSql.Shape.Directive

namespace ShapeSql

open Text

namespace Hop

/-- The names can be told from what stands around them. A column may hold dots. -/
structure WellNamed (hop : Hop) : Prop where
  table_ne : hop.table.toList ≠ []
  table_trimmed : Trimmed hop.table.toList
  table_dot : '.' ∉ hop.table.toList
  table_free : ArrowFree hop.table.toList
  column_ne : ∀ column ∈ hop.column, column.toList ≠ []
  column_trimmed : ∀ column ∈ hop.column, Trimmed column.toList
  column_free : ∀ column ∈ hop.column, ArrowFree column.toList

/-- The characters spell the hop: its table between blanks, then a dot and its column between blanks. A
hop without a column may keep the dot. -/
inductive Spelling : Hop → List Char → Prop where
  | table {table : String} {before after : List Char} : AllBlank before → AllBlank after →
      Spelling ⟨table, none⟩ (before ++ table.toList ++ after)
  | dot {table : String} {before after rest : List Char} : AllBlank before → AllBlank after →
      AllBlank rest → Spelling ⟨table, none⟩ (before ++ table.toList ++ after ++ '.' :: rest)
  | column {table column : String} {before after first last : List Char} : AllBlank before →
      AllBlank after → AllBlank first → AllBlank last →
        Spelling ⟨table, some column⟩
          (before ++ table.toList ++ after ++ '.' :: (first ++ column.toList ++ last))

end Hop

namespace Via

theorem dot_not_blank : isBlank '.' = false := by decide

section Reading

variable {part name : List Char} {hop : Hop}

/-- A part without a dot is a table. -/
theorem hopOf_of_not_mem (h : '.' ∉ part) : hopOf part = ⟨String.ofList (trimChars part), none⟩ := by
  have hinner : '.' ∉ trimChars part := fun hmem => h ((trimChars_isInfix part).subset hmem)
  rw [hopOf, cutAtChar_of_not_mem hinner]
  show (⟨String.ofList (trimChars (trimChars part)), none⟩ : Hop) = _
  rw [trimChars_trimChars]

/-- The first dot ends the name of the table; the rest is a column, if it is not blank. -/
theorem hopOf_of_dot (h : '.' ∉ name) (rest : List Char) : hopOf (name ++ '.' :: rest) =
    ⟨String.ofList (trimChars name),
      if trimChars rest = [] then none else some (String.ofList (trimChars rest))⟩ := by
  obtain ⟨before, after, hbefore, hafter, hpart, _⟩ := exists_padding (name ++ '.' :: rest)
  have hdot : '.' ∈ trimChars (name ++ '.' :: rest) := by
    have hmem : '.' ∈ name ++ '.' :: rest := List.mem_append_right _ List.mem_cons_self
    rw [hpart, List.mem_append, List.mem_append] at hmem
    rcases hmem with (hmem | hmem) | hmem
    · exact absurd hmem (hbefore.not_mem dot_not_blank)
    · exact hmem
    · exact absurd hmem (hafter.not_mem dot_not_blank)
  obtain ⟨inner, more, htrimmed, hinner⟩ := List.eq_append_cons_of_mem hdot
  have hparts : name = before ++ inner ∧ rest = more ++ after := by
    have hsame : name ++ '.' :: rest = (before ++ inner) ++ '.' :: (more ++ after) := by
      conv_lhs => rw [hpart, htrimmed]
      simp only [List.append_assoc, List.cons_append]
    have hfirst : '.' ∉ before ++ inner := by
      rw [List.mem_append, not_or]
      exact ⟨hbefore.not_mem dot_not_blank, hinner⟩
    have hcut := congrArg (cutAtChar '.') hsame
    rw [cutAtChar_append h, cutAtChar_append hfirst] at hcut
    exact ⟨congrArg Prod.fst hcut, Option.some.inj (congrArg Prod.snd hcut)⟩
  have hname : trimChars name = trimChars inner := by
    have haround : trimChars (before ++ inner ++ []) = trimChars inner :=
      trimChars_around hbefore allBlank_nil inner
    rwa [List.append_nil, ← hparts.1] at haround
  have hrest : trimChars rest = trimChars more := by
    have haround : trimChars ([] ++ more ++ after) = trimChars more :=
      trimChars_around allBlank_nil hafter more
    rwa [List.nil_append, ← hparts.2] at haround
  rw [hopOf, htrimmed, cutAtChar_append hinner, hname, hrest]
  by_cases hblank : trimChars more = []
  · simp [hblank]
  · simp [hblank, Option.filter_some]

theorem table_hopOf (part : List Char) :
    (hopOf part).table = String.ofList (trimChars (part.takeWhile (· != '.'))) := by
  by_cases hdot : '.' ∈ part
  · obtain ⟨name, rest, rfl, hname⟩ := List.eq_append_cons_of_mem hdot
    rw [hopOf_of_dot hname, takeWhile_append_of_not_mem hname]
  · rw [hopOf_of_not_mem hdot, takeWhile_of_not_mem hdot]

/-- A part is a spelling of what is read from it. -/
theorem spelling_hopOf (part : List Char) : (hopOf part).Spelling part := by
  by_cases hdot : '.' ∈ part
  · obtain ⟨name, rest, rfl, hname⟩ := List.eq_append_cons_of_mem hdot
    obtain ⟨before, after, hbefore, hafter, hpadded, _⟩ := exists_padding name
    obtain ⟨first, last, hfirst, hlast, hcolumn, _⟩ := exists_padding rest
    rw [hopOf_of_dot hname]
    split
    · rename_i hblank
      have hspelled : Hop.Spelling ⟨String.ofList (trimChars name), none⟩ _ :=
        .dot hbefore hafter (trimChars_eq_nil_iff.mp hblank)
      rwa [String.toList_ofList, ← hpadded] at hspelled
    · have hspelled : Hop.Spelling
          ⟨String.ofList (trimChars name), some (String.ofList (trimChars rest))⟩ _ :=
        .column hbefore hafter hfirst hlast
      rwa [String.toList_ofList, String.toList_ofList, ← hpadded, ← hcolumn] at hspelled
  · obtain ⟨before, after, hbefore, hafter, hpadded, _⟩ := exists_padding part
    have hspelled : Hop.Spelling ⟨String.ofList (trimChars part), none⟩ _ := .table hbefore hafter
    rw [hopOf_of_not_mem hdot]
    rwa [String.toList_ofList, ← hpadded] at hspelled

/-- A column is what is behind a dot, without the blanks around it. -/
theorem column_hopOf {column : String} (h : column ∈ (hopOf part).column) :
    ∃ rest, rest <:+: part ∧ trimChars rest ≠ [] ∧ column.toList = trimChars rest := by
  by_cases hdot : '.' ∈ part
  · obtain ⟨name, rest, rfl, hname⟩ := List.eq_append_cons_of_mem hdot
    rw [hopOf_of_dot hname] at h
    split at h
    · cases h
    · rename_i hsome
      cases h
      exact ⟨rest, ⟨name ++ ['.'], [], by simp⟩, hsome, String.toList_ofList⟩
  · rw [hopOf_of_not_mem hdot] at h
    cases h

/-- What is read from a part without an arrow is well-named, if it names a table. -/
theorem wellNamed_hopOf (hfree : ArrowFree part) (hne : (hopOf part).table.toList ≠ []) :
    (hopOf part).WellNamed := by
  have htable : (hopOf part).table.toList = trimChars (part.takeWhile (· != '.')) := by
    rw [table_hopOf, String.toList_ofList]
  have hfirst : trimChars (part.takeWhile (· != '.')) <:+: part.takeWhile (· != '.') :=
    trimChars_isInfix _
  refine ⟨hne, ?_, ?_, ?_, fun column h => ?_, fun column h => ?_, fun column h => ?_⟩
  · rw [htable]
    exact trimmed_trimChars _
  · rw [htable]
    intro hmem
    cases List.mem_takeWhile_imp (hfirst.subset hmem)
  · rw [htable]
    exact hfree.of_infix (hfirst.trans (List.takeWhile_prefix _).isInfix)
  · obtain ⟨rest, _, hsome, hcolumn⟩ := column_hopOf h
    rw [hcolumn]
    exact hsome
  · obtain ⟨rest, _, _, hcolumn⟩ := column_hopOf h
    rw [hcolumn]
    exact trimmed_trimChars rest
  · obtain ⟨rest, hrest, _, hcolumn⟩ := column_hopOf h
    rw [hcolumn]
    exact hfree.of_infix ((trimChars_isInfix rest).trans hrest)

end Reading

section Writing

variable {hop : Hop} {part : List Char}

/-- Names between blanks hold neither a dot nor an arrow that is not theirs. -/
theorem padded_free {before name after : List Char} (hbefore : AllBlank before) (h : ArrowFree name)
    (hafter : AllBlank after) : ArrowFree (before ++ name ++ after) := by
  rw [List.append_assoc]
  have hend : ArrowFree after := by
    have h := hafter.arrowFree_append arrowFree_nil
    rwa [List.append_nil] at h
  exact hbefore.arrowFree_append (h.append hend (hafter.head?_ne (by decide)))

theorem padded_not_mem {before name after : List Char} (hbefore : AllBlank before) (h : '.' ∉ name)
    (hafter : AllBlank after) : '.' ∉ before ++ name ++ after := by
  rw [List.mem_append, List.mem_append, not_or, not_or]
  exact ⟨⟨hbefore.not_mem dot_not_blank, h⟩, hafter.not_mem dot_not_blank⟩

/-- A spelling is read as what it spells. -/
theorem hopOf_of_spelling (h : hop.WellNamed) (hspelled : hop.Spelling part) : hopOf part = hop := by
  cases hspelled with
  | table hbefore hafter =>
    rw [hopOf_of_not_mem (padded_not_mem hbefore h.table_dot hafter),
      trimChars_padded hbefore h.table_trimmed hafter, String.ofList_toList]
  | dot hbefore hafter hrest =>
    rw [hopOf_of_dot (padded_not_mem hbefore h.table_dot hafter),
      trimChars_padded hbefore h.table_trimmed hafter, if_pos (trimChars_eq_nil_iff.mpr hrest),
      String.ofList_toList]
  | @column table column _ _ _ _ hbefore hafter hfirst hlast =>
    rw [hopOf_of_dot (padded_not_mem hbefore h.table_dot hafter),
      trimChars_padded hbefore h.table_trimmed hafter,
      trimChars_padded hfirst (h.column_trimmed column rfl) hlast, if_neg (h.column_ne column rfl),
      String.ofList_toList, String.ofList_toList]

/-- The arrows of a spelled relation are those between its hops. -/
theorem arrowFree_of_spelling (h : hop.WellNamed) (hspelled : hop.Spelling part) : ArrowFree part := by
  have hdotted : ∀ {name rest : List Char}, ArrowFree name → ArrowFree rest →
      ArrowFree (name ++ '.' :: rest) := fun hname hrest =>
    hname.append (hrest.cons (by decide)) (by simp)
  cases hspelled with
  | table hbefore hafter => exact padded_free hbefore h.table_free hafter
  | dot hbefore hafter hrest =>
    have hblank := hrest.arrowFree_append arrowFree_nil
    rw [List.append_nil] at hblank
    exact hdotted (padded_free hbefore h.table_free hafter) hblank
  | @column table column _ _ _ _ hbefore hafter hfirst hlast =>
    exact hdotted (padded_free hbefore h.table_free hafter)
      (padded_free hfirst (h.column_free column rfl) hlast)

end Writing

section Hops

variable (v : Via) (field : Path)

/-- Reading goes through exactly if every part names a table and there are two at least. -/
theorem hops_eq_ok_iff (hops : List Hop) : v.hops field = .ok hops ↔
    (splitAtArrow v.path.toList).map hopOf = hops ∧ 2 ≤ hops.length ∧
      ∀ hop ∈ hops, hop.table.toList ≠ [] := by
  unfold Via.hops
  simp only
  generalize (splitAtArrow v.path.toList).map hopOf = read
  have hempty : ∀ table : String, table.isEmpty = true ↔ table.toList = [] := by
    intro table
    rw [String.isEmpty_iff, String.toList_eq_nil_iff]
  split
  · rename_i hany
    obtain ⟨hop, hhop, htable⟩ := List.any_eq_true.mp hany
    refine iff_of_false nofun ?_
    rintro ⟨rfl, _, hall⟩
    exact hall hop hhop ((hempty hop.table).mp htable)
  · rename_i hnone
    have hall : ∀ hop ∈ read, hop.table.toList ≠ [] := by
      intro hop hhop htable
      exact hnone (List.any_eq_true.mpr ⟨hop, hhop, (hempty hop.table).mpr htable⟩)
    split
    · rename_i hshort
      refine iff_of_false nofun ?_
      rintro ⟨rfl, hlong, _⟩
      omega
    · rename_i hlong
      rw [Except.ok.injEq]
      constructor
      · rintro rfl
        exact ⟨rfl, by omega, hall⟩
      · exact fun h => h.1

/-- A text that is not read is an invalid attribute. -/
theorem kind_of_hops_error {e : Error} (h : v.hops field = .error e) : e.kind = .invalidAttribute := by
  unfold Via.hops at h
  simp only at h
  split at h
  · cases h
    rfl
  · split at h
    · cases h
      rfl
    · cases h

/-- A text is read as well-named hops exactly if it spells them, two at least, with arrows between them. -/
theorem hops_eq_ok_iff_spelled (hops : List Hop) : v.hops field = .ok hops ↔
    2 ≤ hops.length ∧ (∀ hop ∈ hops, hop.WellNamed) ∧ ∃ parts,
      List.Forall₂ Hop.Spelling hops parts ∧ v.path.toList = List.intercalate arrow parts := by
  rw [hops_eq_ok_iff]
  constructor
  · rintro ⟨rfl, hlength, htables⟩
    have hpieces := arrowPieces_splitAtArrow v.path.toList
    refine ⟨hlength, ?_, splitAtArrow v.path.toList, ?_, hpieces.joined.symm⟩
    · rw [List.forall_mem_map] at htables ⊢
      exact fun part hpart => wellNamed_hopOf (hpieces.free part hpart) (htables part hpart)
    · rw [List.forall₂_map_left_iff, List.forall₂_same]
      exact fun part _ => spelling_hopOf part
  · rintro ⟨hlength, hnamed, parts, hspelled, hpath⟩
    have hread : parts.map hopOf = hops ∧ ∀ part ∈ parts, ArrowFree part := by
      clear hpath hlength
      induction hspelled with
      | nil => exact ⟨rfl, List.forall_mem_nil _⟩
      | cons hfirst _ ih =>
        rw [List.forall_mem_cons] at hnamed
        obtain ⟨hmap, hfree⟩ := ih hnamed.2
        rw [List.map_cons, hmap, hopOf_of_spelling hnamed.1 hfirst, List.forall_mem_cons]
        exact ⟨rfl, arrowFree_of_spelling hnamed.1 hfirst, hfree⟩
    have hne : parts ≠ [] := by
      rintro rfl
      cases hspelled
      cases hlength
    rw [hpath, splitAtArrow_intercalate hne hread.2]
    exact ⟨hread.1, hlength, fun hop hhop => (hnamed hop hhop).table_ne⟩

/-- Reading a relation is the inverse of spelling it out: a text is read as a list of hops exactly if it
spells them. It is refused as an invalid attribute exactly if it has fewer than two pieces between its
arrows or one with nothing but blanks in front of its first dot. -/
theorem hops_inverse_of_spelling :
    (∀ hops, v.hops field = .ok hops ↔
      2 ≤ hops.length ∧ (∀ hop ∈ hops, hop.WellNamed) ∧ ∃ parts,
        List.Forall₂ Hop.Spelling hops parts ∧ v.path.toList = List.intercalate arrow parts) ∧
    ∃ pieces, ArrowPieces v.path.toList pieces ∧
      (∀ others, ArrowPieces v.path.toList others → others = pieces) ∧
      ((∃ e, v.hops field = .error e ∧ e.kind = .invalidAttribute) ↔
        pieces.length < 2 ∨ ∃ piece ∈ pieces, AllBlank (piece.takeWhile (· != '.'))) := by
  refine ⟨v.hops_eq_ok_iff_spelled field, splitAtArrow v.path.toList, arrowPieces_splitAtArrow _,
    fun _ => ArrowPieces.eq, ?_⟩
  have hblank : ∀ part : List Char,
      (hopOf part).table.toList = [] ↔ AllBlank (part.takeWhile (· != '.')) := by
    intro part
    rw [table_hopOf, String.toList_ofList, trimChars_eq_nil_iff]
  have hok := v.hops_eq_ok_iff field ((splitAtArrow v.path.toList).map hopOf)
  rw [and_iff_right rfl, List.length_map, List.forall_mem_map] at hok
  have hrefused : (∃ e, v.hops field = .error e ∧ e.kind = .invalidAttribute) ↔
      ¬v.hops field = .ok ((splitAtArrow v.path.toList).map hopOf) := by
    constructor
    · rintro ⟨e, he, _⟩ hread
      cases he.symm.trans hread
    · intro hnot
      cases hread : v.hops field with
      | error e => exact ⟨e, rfl, v.kind_of_hops_error field hread⟩
      | ok hops =>
        rw [hread, ((v.hops_eq_ok_iff field hops).mp hread).1] at hnot
        exact absurd rfl hnot
  rw [hrefused, hok, not_and_or, Nat.not_le]
  refine or_congr_right ?_
  push Not
  exact exists_congr fun part => and_congr_right fun _ => hblank part

end Hops

/-- A relation of three hops, with dots and blanks at odd places. -/
example : (Via.hops ⟨" Pet .Owner.Id->Owner -> House. ", none⟩ .root).toOption =
    some [⟨"Pet", some "Owner.Id"⟩, ⟨"Owner", none⟩, ⟨"House", none⟩] := by
  decide

end Via

end ShapeSql
