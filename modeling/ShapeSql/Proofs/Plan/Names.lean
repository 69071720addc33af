import Mathlib.Data.List.Nodup
import Mathlib.Data.List.Perm.Subperm
import ShapeSql.Plan.Names
import ShapeSql.Bind.Fragment

namespace ShapeSql

/-- The decimal digits of a number. -/
def digits (n : Nat) : List Char := Nat.toDigits 10 n

theorem isDigits_digits (n : Nat) : Names.isDigits (digits n) = true := by
  have hall : (digits n).all Char.isDigit = true :=
    List.all_eq_true.mpr fun c hc => Nat.isDigit_of_mem_toDigits (by decide) (by decide) hc
  have hne : digits n ≠ [] := Nat.toDigits_ne_nil
  simp [Names.isDigits, hall, hne]

theorem digits_injective : Function.Injective digits := by
  intro m n h
  have hm := Nat.ofDigitChars_ten_toDigits (n := m)
  have hn := Nat.ofDigitChars_ten_toDigits (n := n)
  rw [← hm, ← hn]
  exact congrArg (Nat.ofDigitChars 10 · 0) h

theorem toLower_of_isDigit {c : Char} (h : c.isDigit = true) : c.toLower = c := by
  have hval := Char.isDigit_iff_toNat.mp h
  unfold Char.toLower
  rw [dif_neg]
  rintro ⟨hlow, _⟩
  have : 65 ≤ c.toNat := hlow
  have : c.toNat ≤ 57 := hval.2
  omega

theorem map_toLower_digits (n : Nat) : (digits n).map Char.toLower = digits n := by
  have h : ∀ c ∈ digits n, c.toLower = id c := fun c hc =>
    toLower_of_isDigit (Nat.isDigit_of_mem_toDigits (by decide) (by decide) hc)
  rw [List.map_congr_left h, List.map_id]

theorem toList_lowerAscii (name : String) :
    (lowerAscii name).toList = name.toList.map Char.toLower := by
  rw [lowerAscii, String.toList_ofList]

namespace Names

theorem after?_eq_some {stem text tail : List Char} :
    after? stem text = some tail ↔ text = stem ++ tail := by
  induction stem generalizing text with
  | nil =>
    rw [after?, Option.some.injEq, List.nil_append]
  | cons s stem ih =>
    cases text with
    | nil => simp [after?]
    | cons c text =>
      rw [after?, List.cons_append, List.cons.injEq]
      by_cases hsame : s = c
      · rw [if_pos hsame, ih]
        exact ⟨fun h => ⟨hsame.symm, h⟩, fun h => h.2⟩
      · rw [if_neg hsame]
        exact ⟨nofun, fun h => absurd h.1.symm hsame⟩

/-- The last character before the digits at the end of a text. -/
def lastMark (cs : List Char) : Option Char := (cs.reverse.dropWhile Char.isDigit).head?

theorem lastMark_append (cs ds : List Char) (c : Char) (hc : c.isDigit = false)
    (hds : ds.all Char.isDigit = true) : lastMark (cs ++ c :: ds) = some c := by
  have hall : ∀ d ∈ ds.reverse, d.isDigit = true :=
    fun d hd => List.all_eq_true.mp hds d (List.mem_reverse.mp hd)
  have hreverse : (cs ++ c :: ds).reverse = ds.reverse ++ c :: cs.reverse := by simp
  rw [lastMark, hreverse, List.dropWhile_append_of_pos hall, List.dropWhile_cons_of_neg (by simp [hc]),
    List.head?_cons]

/-- A text can be taken apart in one way before the digits at its end. -/
theorem append_mark_inj {xs ys i j : List Char} {c d : Char} (hc : c.isDigit = false)
    (hd : d.isDigit = false) (hi : i.all Char.isDigit = true) (hj : j.all Char.isDigit = true)
    (h : xs ++ c :: i = ys ++ d :: j) : xs = ys ∧ c = d ∧ i = j := by
  have htake : ∀ (zs ds : List Char) (m : Char), m.isDigit = false → ds.all Char.isDigit = true →
      (zs ++ m :: ds).reverse.takeWhile Char.isDigit = ds.reverse := by
    intro zs ds m hm hds
    have hall : ∀ c ∈ ds.reverse, c.isDigit = true := fun c hc =>
      List.all_eq_true.mp hds c (List.mem_reverse.mp hc)
    have hreverse : (zs ++ m :: ds).reverse = ds.reverse ++ m :: zs.reverse := by simp
    rw [hreverse, List.takeWhile_append_of_pos hall, List.takeWhile_cons_of_neg (by simp [hm]),
      List.append_nil]
  have hdigits : i = j := by
    have htaken := htake xs i c hc hi
    rw [h, htake ys j d hd hj] at htaken
    exact (List.reverse_injective htaken).symm
  subst hdigits
  rw [List.append_cons, List.append_cons ys] at h
  obtain ⟨hstems, hmarks⟩ := List.append_inj' (List.append_cancel_right h) rfl
  cases hmarks
  exact ⟨hstems, rfl, rfl⟩

end Names

theorem Text.splitAtChar_ne_nil (sep : Char) (cs : List Char) : splitAtChar sep cs ≠ [] := by
  cases cs with
  | nil => exact List.cons_ne_nil _ _
  | cons c cs =>
    rw [splitAtChar]
    split
    · exact List.cons_ne_nil _ _
    · split
      · exact List.cons_ne_nil _ _
      · exact List.cons_ne_nil _ _

/-- The pieces put together again. -/
theorem Text.intercalate_splitAtChar (sep : Char) (cs : List Char) :
    [sep].intercalate (splitAtChar sep cs) = cs := by
  induction cs with
  | nil => rfl
  | cons c cs ih =>
    rw [splitAtChar]
    by_cases hsep : c = sep
    · rw [if_pos hsep, List.intercalate_cons_of_ne_nil (splitAtChar_ne_nil sep cs), ih, hsep]
      rfl
    · rw [if_neg hsep]
      cases hpieces : splitAtChar sep cs with
      | nil => exact absurd hpieces (splitAtChar_ne_nil sep cs)
      | cons piece pieces =>
        rw [hpieces] at ih
        rw [List.intercalate_cons_cons_left, ih]

/-- A text without the separator is one piece. -/
theorem Text.splitAtChar_of_not_mem {sep : Char} {cs : List Char} (h : sep ∉ cs) :
    splitAtChar sep cs = [cs] := by
  induction cs with
  | nil => rfl
  | cons c cs ih =>
    have hne : c ≠ sep := fun he => h (he ▸ List.mem_cons_self)
    rw [splitAtChar, if_neg hne, ih fun hmem => h (List.mem_cons_of_mem c hmem)]

theorem Text.splitAtChar_append {sep : Char} {cs : List Char} (h : sep ∉ cs) (rest : List Char) :
    splitAtChar sep (cs ++ sep :: rest) = cs :: splitAtChar sep rest := by
  induction cs with
  | nil => rw [List.nil_append, splitAtChar, if_pos rfl]
  | cons c cs ih =>
    have hne : c ≠ sep := fun he => h (he ▸ List.mem_cons_self)
    rw [List.cons_append, splitAtChar, if_neg hne, ih fun hmem => h (List.mem_cons_of_mem c hmem)]

namespace Names

theorem all_isDigit_of_isDigits {cs : List Char} (h : isDigits cs = true) :
    cs.all Char.isDigit = true := by
  rw [isDigits, Bool.and_eq_true] at h
  exact h.2

/-- The digits at the end of a derived name follow an underscore or the mark of a column. -/
theorem lastMark_of_derives {base name : String} (h : derives base name = true) :
    lastMark name.toList = some '_' ∨ lastMark name.toList = some 'c' := by
  unfold derives at h
  split at h
  · rename_i tail hafter
    have hname := after?_eq_some.mp hafter
    have hpieces := Text.intercalate_splitAtChar '_' tail
    rw [hname]
    unfold isDerivedTail at h
    split at h
    · rename_i i hi
      rw [hi, List.intercalate_singleton] at hpieces
      left
      rw [← hpieces, List.append_assoc, List.singleton_append]
      exact lastMark_append _ _ _ (by decide) (all_isDigit_of_isDigits h)
    · rename_i i j hij
      rw [hij, List.intercalate_cons_cons, List.intercalate_singleton] at hpieces
      rw [Bool.or_eq_true, Bool.and_eq_true, Bool.and_eq_true] at h
      rcases h with ⟨_, hj⟩ | ⟨_, hj⟩
      · left
        rw [← hpieces]
        have := lastMark_append (base.toList ++ ['_'] ++ i) j '_' (by decide)
          (all_isDigit_of_isDigits hj)
        simpa using this
      · right
        cases j with
        | nil => cases hj
        | cons c ds =>
          rw [isMarked, Bool.and_eq_true, beq_iff_eq] at hj
          obtain ⟨rfl, hds⟩ := hj
          rw [← hpieces]
          have := lastMark_append (base.toList ++ ['_'] ++ i ++ ['_']) ds 'c' (by decide)
            (all_isDigit_of_isDigits hds)
          simpa using this
    · cases h
  · cases h

/-- The spellings tried when a name is taken. -/
def numbered (base : String) (k : Nat) : String := s!"{base}_n{k}"

theorem toList_numbered (base : String) (k : Nat) :
    (lowerAscii (numbered base k)).toList =
      (lowerAscii base).toList ++ '_' :: 'n' :: digits k := by
  have htext : (numbered base k).toList = base.toList ++ ('_' :: 'n' :: digits k) := by
    change (base ++ "_n" ++ Nat.repr k).toList = _
    rw [String.toList_append, String.toList_append, Nat.toList_repr, List.append_assoc]
    rfl
  rw [toList_lowerAscii, toList_lowerAscii, htext, List.map_append, List.map_cons, List.map_cons,
    map_toLower_digits]
  rfl

theorem derives_numbered (base other : String) (k : Nat) :
    derives other (lowerAscii (numbered base k)) = false := by
  rw [Bool.eq_false_iff]
  intro h
  have hmark : lastMark (lowerAscii (numbered base k)).toList = some 'n' := by
    rw [toList_numbered]
    have := lastMark_append ((lowerAscii base).toList ++ ['_']) (digits k) 'n' (by decide)
      (all_isDigit_of_isDigits (isDigits_digits k))
    simpa using this
  rcases lastMark_of_derives h with hother | hother
  · rw [hmark] at hother
    cases hother
  · rw [hmark] at hother
    cases hother

/-- The digits of a text after a stem. -/
def digitsAfter (stem text : String) : List Char :=
  (text.toList.drop (stem.length + 2)).takeWhile Char.isDigit

/-- A name that stands in the way of a numbered name tells its number. -/
theorem digitsAfter_of_prefix {base text : String} {k : Nat} {rest : List Char}
    (htext : text.toList = (lowerAscii (numbered base k)).toList ++ rest)
    (hrest : ∀ c ∈ rest.head?, c.isDigit = false) :
    digitsAfter (lowerAscii base) text = digits k := by
  have hall : ∀ d ∈ digits k, d.isDigit = true :=
    List.all_eq_true.mp (all_isDigit_of_isDigits (isDigits_digits k))
  have hdrop : text.toList.drop ((lowerAscii base).length + 2) = digits k ++ rest := by
    rw [htext, toList_numbered]
    have hlength : (lowerAscii base).length + 2 =
        ((lowerAscii base).toList ++ ['_', 'n']).length := by
      rw [List.length_append, String.length_toList]
      rfl
    have hsplit : (lowerAscii base).toList ++ '_' :: 'n' :: digits k ++ rest =
        ((lowerAscii base).toList ++ ['_', 'n']) ++ (digits k ++ rest) := by simp
    rw [hsplit, hlength, List.drop_left]
  rw [digitsAfter, hdrop, List.takeWhile_append_of_pos hall]
  cases rest with
  | nil => simp
  | cons c rest =>
    rw [List.takeWhile_cons_of_neg (by simp [hrest c rfl]), List.append_nil]

/-- Taken names that block numbers block different ones, so one of the numbers tried is free. -/
theorem exists_free {n : Names} {base : String} {free : String → Bool}
    (hblocked : ∀ k, free (numbered base k) = false →
      ∃ t ∈ n.taken, digitsAfter (lowerAscii base) t = digits k) :
    ∃ k, k < n.taken.length + 1 ∧ free (numbered base (k + 2)) = true := by
  by_contra hnone
  -- Were all numbers blocked, their digits would all be found behind the stem of some taken name.
  have hall : ∀ k < n.taken.length + 1, free (numbered base (k + 2)) = false := by
    intro k hk
    rw [Bool.eq_false_iff]
    exact fun h => hnone ⟨k, hk, h⟩
  have hsubset : (List.range (n.taken.length + 1)).map (fun k => digits (k + 2)) ⊆
      n.taken.map (digitsAfter (lowerAscii base)) := by
    intro ds hds
    obtain ⟨k, hk, rfl⟩ := List.mem_map.mp hds
    obtain ⟨t, ht, hdigits⟩ := hblocked (k + 2) (hall k (List.mem_range.mp hk))
    exact List.mem_map.mpr ⟨t, ht, hdigits⟩
  have hnodup : ((List.range (n.taken.length + 1)).map fun k => digits (k + 2)).Nodup := by
    apply List.Nodup.map _ List.nodup_range
    intro j k hjk
    have := digits_injective hjk
    omega
  have hlength := (List.subperm_of_subset hnodup hsubset).length_le
  simp only [List.length_map, List.length_range] at hlength
  omega

end Names

theorem firstFree_isFree {free : String → Bool} {desired : String} {spelling : Nat → String}
    {tries : Nat} (h : ∃ k, k < tries ∧ free (spelling (k + 2)) = true) :
    free (firstFree free desired spelling tries) = true := by
  unfold firstFree
  split
  · assumption
  · obtain ⟨k, hk, hfree⟩ := h
    cases hfound : ((List.range tries).map fun n => spelling (n + 2)).find? free with
    | none =>
      have := List.find?_eq_none.mp hfound (spelling (k + 2))
        (List.mem_map.mpr ⟨k, List.mem_range.mpr hk, rfl⟩)
      exact absurd hfree this
    | some found => exact List.find?_some hfound

namespace Names

theorem isFree_iff (n : Names) (name : String) :
    n.isFree name = true ↔
      lowerAscii name ∉ n.taken ∧ ∀ base ∈ n.bases, derives base (lowerAscii name) = false := by
  simp [isFree]

theorem isFreeBase_iff (n : Names) (name : String) :
    n.isFreeBase name = true ↔
      n.isFree name = true ∧ ∀ t ∈ n.taken, derives (lowerAscii name) t = false := by
  simp [isFreeBase]

theorem isFree_eq_false_of_mem_taken {n : Names} {name : String} (h : lowerAscii name ∈ n.taken) :
    n.isFree name = false := by
  rw [Bool.eq_false_iff]
  intro hfree
  exact ((isFree_iff n name).mp hfree).1 h

/-- Whoever takes a name takes it for good. -/
theorem isFree_eq_false_of_taken {n n' : Names} (htaken : ∀ t ∈ n.taken, t ∈ n'.taken)
    (hbases : ∀ b ∈ n.bases, b ∈ n'.bases) {name : String} (h : n.isFree name = false) :
    n'.isFree name = false := by
  rw [Bool.eq_false_iff] at h ⊢
  intro hfree
  obtain ⟨hnew, hderived⟩ := (isFree_iff n' name).mp hfree
  apply h
  apply (isFree_iff n name).mpr
  exact ⟨fun ht => hnew (htaken _ ht), fun b hb => hderived b (hbases b hb)⟩

/-- A name derived from a numbered name starts with it, and goes on with an underscore. -/
theorem digitsAfter_of_derives {base t : String} {k : Nat}
    (h : derives (lowerAscii (numbered base k)) t = true) :
    digitsAfter (lowerAscii base) t = digits k := by
  unfold derives at h
  split at h
  · rename_i tail hafter
    have htext : t.toList = (lowerAscii (numbered base k)).toList ++ '_' :: tail := by
      rw [after?_eq_some.mp hafter, List.append_assoc, List.singleton_append]
    apply digitsAfter_of_prefix htext
    intro c hc
    cases hc
    rfl
  · cases h

/-- What an empty base is replaced by. -/
def stemOf (base : String) : String := if base.isEmpty then "p" else base

theorem exists_isFree (n : Names) (stem : String) :
    ∃ k, k < n.taken.length + 1 ∧ n.isFree (numbered stem (k + 2)) = true := by
  apply exists_free
  intro k hblocked
  have htaken : lowerAscii (numbered stem k) ∈ n.taken := by
    by_contra hfree
    have := (isFree_iff n _).mpr ⟨hfree, fun other _ => derives_numbered _ other k⟩
    rw [hblocked] at this
    cases this
  exact ⟨_, htaken, digitsAfter_of_prefix (List.append_nil _).symm nofun⟩

theorem exists_isFreeBase (n : Names) (stem : String) :
    ∃ k, k < n.taken.length + 1 ∧ n.isFreeBase (numbered stem (k + 2)) = true := by
  apply exists_free
  intro k hblocked
  by_contra hnone
  have hfree : n.isFree (numbered stem k) = true := by
    apply (isFree_iff n _).mpr
    refine ⟨fun htaken => ?_, fun other _ => derives_numbered _ other k⟩
    exact hnone ⟨_, htaken, digitsAfter_of_prefix (List.append_nil _).symm nofun⟩
  have := (isFreeBase_iff n _).mpr ⟨hfree, fun t ht => by
    rw [Bool.eq_false_iff]
    exact fun hderives => hnone ⟨t, ht, digitsAfter_of_derives hderives⟩⟩
  rw [hblocked] at this
  cases this

theorem unused_isFree (n : Names) (base : String) : n.isFree (n.unused base n.isFree) = true := by
  change n.isFree (firstFree n.isFree (stemOf base) (numbered (stemOf base)) _) = true
  exact firstFree_isFree (exists_isFree n (stemOf base))

theorem unused_isFreeBase (n : Names) (base : String) :
    n.isFreeBase (n.unused base n.isFreeBase) = true := by
  change n.isFreeBase (firstFree n.isFreeBase (stemOf base) (numbered (stemOf base)) _) = true
  exact firstFree_isFree (exists_isFreeBase n (stemOf base))

theorem derives_of_tail {base name : String} {tail : List Char}
    (hname : name.toList = base.toList ++ '_' :: tail)
    (htail : isDerivedTail (Text.splitAtChar '_' tail) = true) : derives base name = true := by
  have hafter : after? (base.toList ++ ['_']) name.toList = some tail := by
    rw [after?_eq_some, hname, List.append_assoc, List.singleton_append]
  rw [derives, hafter]
  exact htail

theorem underscore_not_mem_digits (n : Nat) : '_' ∉ digits n := Nat.underscore_not_in_toDigits

theorem toList_itemName (base : String) (i : Nat) :
    (lowerAscii (itemName base i)).toList = (lowerAscii base).toList ++ '_' :: digits i := by
  have htext : (itemName base i).toList = base.toList ++ ('_' :: digits i) := by
    change (base ++ "_" ++ Nat.repr i).toList = _
    rw [String.toList_append, String.toList_append, Nat.toList_repr, List.append_assoc]
    rfl
  rw [toList_lowerAscii, toList_lowerAscii, htext, List.map_append, List.map_cons,
    map_toLower_digits]
  rfl

theorem toList_cellName (base : String) (row column : Nat) :
    (lowerAscii (RowsSource.cellName (.derived base) row column)).toList =
      (lowerAscii base).toList ++ '_' :: 'r' :: (digits row ++ '_' :: 'c' :: digits column) := by
  have htext : (RowsSource.cellName (.derived base) row column).toList =
      base.toList ++ ('_' :: 'r' :: (digits row ++ '_' :: 'c' :: digits column)) := by
    change (base ++ "_r" ++ Nat.repr row ++ "_c" ++ Nat.repr column).toList = _
    simp only [String.toList_append, Nat.toList_repr, List.append_assoc]
    rfl
  rw [toList_lowerAscii, toList_lowerAscii, htext]
  simp only [List.map_append, List.map_cons, map_toLower_digits]
  rfl

theorem derives_itemName (base : String) (i : Nat) :
    derives (lowerAscii base) (lowerAscii (itemName base i)) = true := by
  apply derives_of_tail (toList_itemName base i)
  rw [Text.splitAtChar_of_not_mem (underscore_not_mem_digits i)]
  exact isDigits_digits i

theorem derives_itemName_itemName (base : String) (i j : Nat) :
    derives (lowerAscii base) (lowerAscii (itemName (itemName base i) j)) = true := by
  have hname : (lowerAscii (itemName (itemName base i) j)).toList =
      (lowerAscii base).toList ++ '_' :: (digits i ++ '_' :: digits j) := by
    rw [toList_itemName, toList_itemName, List.append_assoc, List.cons_append]
  apply derives_of_tail hname
  rw [Text.splitAtChar_append (underscore_not_mem_digits i),
    Text.splitAtChar_of_not_mem (underscore_not_mem_digits j)]
  simp [isDerivedTail, isDigits_digits]

theorem derives_cellName (base : String) (row column : Nat) :
    derives (lowerAscii base) (lowerAscii (RowsSource.cellName (.derived base) row column)) =
      true := by
  apply derives_of_tail (toList_cellName base row column)
  have hmarked : ∀ (c : Char) (n : Nat), c ≠ '_' → '_' ∉ c :: digits n := by
    intro c n hc hmem
    rcases List.mem_cons.mp hmem with he | hdigits
    · exact hc he.symm
    · exact underscore_not_mem_digits n hdigits
  rw [← List.cons_append, Text.splitAtChar_append (hmarked 'r' row (by decide)),
    Text.splitAtChar_of_not_mem (hmarked 'c' column (by decide))]
  simp [isDerivedTail, isMarked, isDigits_digits]

end Names

end ShapeSql
