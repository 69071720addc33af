import ShapeSql.Proofs.Plan.Names

/-!
Whatever names are asked for, one after the other, the names handed out stay apart: no two are equal up
to case, none is one that will be derived from a base, and no name is derived from two bases. A name is
checked only against the names of the earlier requests; that the spaces of two bases share nothing follows
from the bases alone, for a name of both spaces would put one base into the space of the other. The search
for a name is bounded by the number of names taken, and ends where a search without a bound does.
-/

namespace ShapeSql
namespace Names

/-- A text of digits. -/
def Numeral (cs : List Char) : Prop := cs ≠ [] ∧ ∀ c ∈ cs, c.isDigit = true

/-- What follows a base in the names derived from it. -/
inductive DerivedTail : List Char → Prop
  | item {i : List Char} : Numeral i → DerivedTail ('_' :: i)
  | part {i j : List Char} : Numeral i → Numeral j → DerivedTail ('_' :: (i ++ '_' :: j))
  | cell {i j : List Char} : Numeral i → Numeral j → DerivedTail ('_' :: 'r' :: (i ++ '_' :: 'c' :: j))

/-- The space of a base: the names `base_i`, `base_i_j` and `base_ri_cj`, up to case. -/
def InSpace (base name : String) : Prop :=
  ∃ tail, DerivedTail tail ∧ sameName name (base ++ String.ofList tail) = true

/-- A call that asks for a name. -/
inductive Request
  | single (wanted : String)
  | base (wanted : String)

/-- A name handed out, and whether names are derived from it. -/
structure Handed where
  name : String
  isBase : Bool

/-- The name a request is served with, and the names afterwards. -/
def serve (n : Names) : Request → Handed × Names
  | .single wanted => (⟨(n.single wanted).1, false⟩, (n.single wanted).2)
  | .base wanted => (⟨(n.base wanted).1, true⟩, (n.base wanted).2)

/-- The names handed out for requests one after the other. -/
def handedOut (n : Names) : List Request → List Handed
  | [] => []
  | request :: requests => (n.serve request).1 :: (n.serve request).2.handedOut requests

/-- A search through the numbered spellings from `k` on, without a bound, ends with the name. -/
inductive FoundFrom (free : String → Bool) (stem : String) : Nat → String → Prop
  | here {k : Nat} : free (numbered stem k) = true → FoundFrom free stem k (numbered stem k)
  | later {k : Nat} {name : String} : free (numbered stem k) = false →
      FoundFrom free stem (k + 1) name → FoundFrom free stem k name

/-- The search for a name ends: at the stem itself, or else at a numbered spelling. -/
def SearchEnds (free : String → Bool) (wanted name : String) : Prop :=
  if free (stemOf wanted) then name = stemOf wanted else FoundFrom free (stemOf wanted) 2 name

/-- The search that a request starts ends with the name. -/
def RequestEnds (n : Names) (name : String) : Request → Prop
  | .single wanted => SearchEnds n.isFree wanted name
  | .base wanted => SearchEnds n.isFreeBase wanted name

/-- Two names handed out in either order stay apart. -/
structure Handed.Apart (h g : Handed) : Prop where
  names : sameName h.name g.name = false
  right : h.isBase = true → ¬ InSpace h.name g.name
  left : g.isBase = true → ¬ InSpace g.name h.name
  spaces : h.isBase = true → g.isBase = true →
    ∀ s t, InSpace h.name s → InSpace g.name t → sameName s t = false

section Spaces

theorem isDigits_iff {cs : List Char} : isDigits cs = true ↔ Numeral cs := by
  simp [isDigits, Numeral]

theorem Numeral.all {cs : List Char} (h : Numeral cs) : cs.all Char.isDigit = true :=
  List.all_eq_true.mpr h.2

theorem Numeral.underscore_not_mem {cs : List Char} (h : Numeral cs) : '_' ∉ cs :=
  fun hmem => absurd (h.2 _ hmem) (by decide)

theorem Numeral.map_toLower {cs : List Char} (h : Numeral cs) : cs.map Char.toLower = cs := by
  rw [List.map_congr_left fun c hc => toLower_of_isDigit (h.2 c hc), List.map_id']

theorem DerivedTail.map_toLower {tail : List Char} (h : DerivedTail tail) :
    tail.map Char.toLower = tail := by
  cases h with
  | item hi => rw [List.map_cons, hi.map_toLower]; rfl
  | part hi hj => simp only [List.map_cons, List.map_append, hi.map_toLower, hj.map_toLower]; rfl
  | cell hi hj => simp only [List.map_cons, List.map_append, hi.map_toLower, hj.map_toLower]; rfl

theorem isMarked_iff {mark : Char} {cs : List Char} :
    isMarked mark cs = true ↔ ∃ ds, cs = mark :: ds ∧ Numeral ds := by
  cases cs with
  | nil => simp [isMarked]
  | cons c ds =>
    simp only [isMarked, Bool.and_eq_true, beq_iff_eq, isDigits_iff, List.cons.injEq]
    constructor
    · rintro ⟨rfl, hds⟩
      exact ⟨ds, ⟨rfl, rfl⟩, hds⟩
    · rintro ⟨_, ⟨rfl, rfl⟩, hds⟩
      exact ⟨rfl, hds⟩

/-- The check of the pieces between underscores accepts the three forms and no others. -/
theorem isDerivedTail_iff {tail : List Char} :
    isDerivedTail (Text.splitAtChar '_' tail) = true ↔ DerivedTail ('_' :: tail) := by
  constructor
  · intro h
    have hpieces := Text.intercalate_splitAtChar '_' tail
    unfold isDerivedTail at h
    split at h
    · rename_i i hi
      rw [hi, List.intercalate_singleton] at hpieces
      rw [← hpieces]
      exact .item (isDigits_iff.mp h)
    · rename_i i j hij
      rw [hij, List.intercalate_cons_cons, List.intercalate_singleton] at hpieces
      rw [Bool.or_eq_true, Bool.and_eq_true, Bool.and_eq_true] at h
      rcases h with ⟨hi, hj⟩ | ⟨hi, hj⟩
      · rw [← hpieces, List.append_assoc]
        exact .part (isDigits_iff.mp hi) (isDigits_iff.mp hj)
      · obtain ⟨row, rfl, hrow⟩ := isMarked_iff.mp hi
        obtain ⟨column, rfl, hcolumn⟩ := isMarked_iff.mp hj
        rw [← hpieces, List.append_assoc]
        exact .cell hrow hcolumn
    · cases h
  · rintro (⟨hi⟩ | ⟨hi, hj⟩ | ⟨hi, hj⟩)
    · rw [Text.splitAtChar_of_not_mem hi.underscore_not_mem]
      exact isDigits_iff.mpr hi
    · rw [Text.splitAtChar_append hi.underscore_not_mem,
        Text.splitAtChar_of_not_mem hj.underscore_not_mem]
      simp [isDerivedTail, isDigits_iff.mpr hi, isDigits_iff.mpr hj]
    · have hmarked : ∀ {mark : Char} {cs : List Char}, mark ≠ '_' → Numeral cs → '_' ∉ mark :: cs :=
        fun hne hcs => List.not_mem_cons_of_ne_of_not_mem hne.symm hcs.underscore_not_mem
      rw [← List.cons_append, Text.splitAtChar_append (hmarked (by decide) hi),
        Text.splitAtChar_of_not_mem (hmarked (by decide) hj)]
      simp [isDerivedTail, isMarked, isDigits_iff.mpr hi, isDigits_iff.mpr hj]

theorem inSpace_iff {base name : String} :
    InSpace base name ↔
      ∃ tail, DerivedTail tail ∧ (lowerAscii name).toList = (lowerAscii base).toList ++ tail := by
  refine exists_congr fun tail => and_congr_right fun htail => ?_
  have htext : (lowerAscii (base ++ String.ofList tail)).toList = (lowerAscii base).toList ++ tail := by
    rw [toList_lowerAscii, toList_lowerAscii, String.toList_append, String.toList_ofList,
      List.map_append, htail.map_toLower]
  rw [sameName, beq_iff_eq, ← String.toList_inj, htext]

theorem derives_iff {base name : String} :
    derives (lowerAscii base) (lowerAscii name) = true ↔ InSpace base name := by
  rw [inSpace_iff]
  constructor
  · intro h
    unfold derives at h
    split at h
    · rename_i tail hafter
      have hname := after?_eq_some.mp hafter
      rw [List.append_assoc, List.singleton_append] at hname
      exact ⟨_, isDerivedTail_iff.mp h, hname⟩
    · cases h
  · rintro ⟨tail, htail, hname⟩
    obtain ⟨rest, rfl⟩ : ∃ rest, tail = '_' :: rest := by cases htail <;> exact ⟨_, rfl⟩
    exact derives_of_tail hname (isDerivedTail_iff.mpr htail)

theorem not_inSpace_of_derives {base name : String}
    (h : derives (lowerAscii base) (lowerAscii name) = false) : ¬ InSpace base name :=
  fun hspace => absurd (derives_iff.mpr hspace) (by simp [h])

/-- Every tail ends in a number behind a mark. Before the mark there is nothing or one more number, or
the number of a row. -/
theorem DerivedTail.split {tail : List Char} (h : DerivedTail tail) :
    ∃ stem mark j, tail = stem ++ mark :: j ∧ Numeral j ∧
      (mark = '_' ∧ (stem = [] ∨ ∃ i, Numeral i ∧ stem = '_' :: i) ∨
        mark = 'c' ∧ ∃ i, Numeral i ∧ stem = '_' :: 'r' :: (i ++ ['_'])) := by
  cases h with
  | @item i hi => exact ⟨[], '_', i, rfl, hi, .inl ⟨rfl, .inl rfl⟩⟩
  | @part i j hi hj => exact ⟨'_' :: i, '_', j, rfl, hj, .inl ⟨rfl, .inr ⟨i, hi, rfl⟩⟩⟩
  | @cell i j hi hj =>
    refine ⟨'_' :: 'r' :: (i ++ ['_']), 'c', j, ?_, hj, .inr ⟨rfl, i, hi, rfl⟩⟩
    rw [List.cons_append, List.cons_append, List.append_assoc, List.singleton_append]

/-- Of two bases with a derived name in common one is the other or the other with a number. -/
theorem bases_of_tails {xs ys tail tail' : List Char} (htail : DerivedTail tail)
    (htail' : DerivedTail tail') (h : xs ++ tail = ys ++ tail') :
    xs = ys ∨ (∃ i, Numeral i ∧ ys = xs ++ '_' :: i) ∨ ∃ i, Numeral i ∧ xs = ys ++ '_' :: i := by
  obtain ⟨stem, mark, j, rfl, hj, hstem⟩ := htail.split
  obtain ⟨stem', mark', j', rfl, hj', hstem'⟩ := htail'.split
  have hmark : mark.isDigit = false := by rcases hstem with ⟨rfl, -⟩ | ⟨rfl, -⟩ <;> decide
  have hmark' : mark'.isDigit = false := by rcases hstem' with ⟨rfl, -⟩ | ⟨rfl, -⟩ <;> decide
  rw [← List.append_assoc, ← List.append_assoc] at h
  obtain ⟨hstems, hmarks, -⟩ := append_mark_inj hmark hmark' hj.all hj'.all h
  rcases hstem with ⟨rfl, rfl | ⟨i, hi, rfl⟩⟩ | ⟨rfl, i, hi, rfl⟩
  all_goals rcases hstem' with ⟨rfl, rfl | ⟨i', hi', rfl⟩⟩ | ⟨rfl, i', hi', rfl⟩
  all_goals try exact absurd hmarks (by decide)
  · rw [List.append_nil, List.append_nil] at hstems
    exact .inl hstems
  · rw [List.append_nil] at hstems
    exact .inr (.inr ⟨i', hi', hstems⟩)
  · rw [List.append_nil] at hstems
    exact .inr (.inl ⟨i, hi, hstems.symm⟩)
  · exact .inl (append_mark_inj (by decide) (by decide) hi.all hi'.all hstems).1
  · have hshape : ∀ zs k : List Char,
        zs ++ '_' :: 'r' :: (k ++ ['_']) = (zs ++ ['_'] ++ 'r' :: k) ++ ['_'] := by simp
    rw [hshape, hshape] at hstems
    have hrows := append_mark_inj (by decide) (by decide) hi.all hi'.all (List.append_cancel_right hstems)
    exact .inl (List.append_cancel_right hrows.1)

/-- Two spaces share a name only where the bases are one or one lies in the space of the other. -/
theorem bases_of_inSpace {b b' s t : String} (hs : InSpace b s) (ht : InSpace b' t)
    (hsame : sameName s t = true) : sameName b b' = true ∨ InSpace b b' ∨ InSpace b' b := by
  obtain ⟨tail, htail, hname⟩ := inSpace_iff.mp hs
  obtain ⟨tail', htail', hname'⟩ := inSpace_iff.mp ht
  rw [sameName, beq_iff_eq] at hsame
  rw [hsame, hname'] at hname
  rcases bases_of_tails htail htail' hname.symm with hbases | ⟨i, hi, hbases⟩ | ⟨i, hi, hbases⟩
  · exact .inl (beq_iff_eq.mpr (String.toList_injective hbases))
  · exact .inr (.inl (inSpace_iff.mpr ⟨_, .item hi, hbases⟩))
  · exact .inr (.inr (inSpace_iff.mpr ⟨_, .item hi, hbases⟩))

end Spaces

section Searches

variable {free : String → Bool} {stem wanted name : String}

theorem FoundFrom.unique {k : Nat} {other : String} (h : FoundFrom free stem k name)
    (hother : FoundFrom free stem k other) : name = other := by
  induction h with
  | here hfree =>
    cases hother with
    | here => rfl
    | later hblocked => simp [hfree] at hblocked
  | later hblocked _ ih =>
    cases hother with
    | here hfree => simp [hfree] at hblocked
    | later _ hother => exact ih hother

/-- Where one of the first spellings is free, the search through them finds what the search without a
bound finds. -/
theorem foundFrom_of_exists {tries k : Nat}
    (h : ∃ i, i < tries ∧ free (numbered stem (i + k)) = true) :
    ∃ name, ((List.range tries).map fun i => numbered stem (i + k)).find? free = some name ∧
      FoundFrom free stem k name := by
  induction tries generalizing k with
  | zero =>
    obtain ⟨i, hi, -⟩ := h
    exact absurd hi (Nat.not_lt_zero i)
  | succ tries ih =>
    rw [List.range_succ_eq_map, List.map_cons, List.find?_cons, Nat.zero_add, List.map_map]
    cases hfirst : free (numbered stem k) with
    | true => exact ⟨_, rfl, .here hfirst⟩
    | false =>
      obtain ⟨i, hi, hfree⟩ := h
      obtain ⟨i, rfl⟩ : ∃ j, i = j + 1 := Nat.exists_eq_succ_of_ne_zero fun hzero => by
        rw [hzero, Nat.zero_add, hfirst] at hfree
        cases hfree
      rw [Nat.add_right_comm] at hfree
      obtain ⟨name, hfound, hends⟩ := ih (k := k + 1) ⟨i, Nat.lt_of_succ_lt_succ hi, hfree⟩
      have hspellings : ((fun i => numbered stem (i + k)) ∘ Nat.succ) =
          fun i => numbered stem (i + (k + 1)) := by
        funext i
        exact congrArg (numbered stem) (Nat.succ_add_eq_add_succ i k)
      rw [hspellings]
      exact ⟨name, hfound, .later hfirst hends⟩

theorem searchEnds_iff {tries : Nat}
    (h : ∃ i, i < tries ∧ free (numbered (stemOf wanted) (i + 2)) = true) :
    SearchEnds free wanted name ↔
      name = firstFree free (stemOf wanted) (numbered (stemOf wanted)) tries := by
  unfold SearchEnds firstFree
  split
  · rfl
  · obtain ⟨found, hfound, hends⟩ := foundFrom_of_exists h
    rw [hfound, Option.getD_some]
    exact ⟨fun hname => hname.unique hends, fun hname => hname ▸ hends⟩

/-- Every call ends, and with the name that it is served with. -/
theorem requestEnds_iff (n : Names) (request : Request) :
    RequestEnds n name request ↔ name = (n.serve request).1.name := by
  cases request with
  | single wanted => exact searchEnds_iff (exists_isFree n (stemOf wanted))
  | base wanted => exact searchEnds_iff (exists_isFreeBase n (stemOf wanted))

end Searches

section Runs

/-- Nothing taken stands in the way of a name. -/
structure Clear (n : Names) (h : Handed) : Prop where
  free : n.isFree h.name = true
  base : h.isBase = true → n.isFreeBase h.name = true

theorem serve_clear (n : Names) (request : Request) : n.Clear (n.serve request).1 := by
  cases request with
  | single wanted => exact ⟨unused_isFree n wanted, nofun⟩
  | base wanted =>
    have hfree := unused_isFreeBase n wanted
    exact ⟨((isFreeBase_iff n _).mp hfree).1, fun _ => hfree⟩

theorem serve_taken (n : Names) (request : Request) :
    (n.serve request).2.taken = lowerAscii (n.serve request).1.name :: n.taken := by
  cases request <;> rfl

theorem serve_bases (n : Names) (request : Request) :
    (n.serve request).2.bases =
      if (n.serve request).1.isBase then lowerAscii (n.serve request).1.name :: n.bases else n.bases := by
  cases request <;> rfl

/-- What is clear after a request was so before. -/
theorem Clear.before {n : Names} {request : Request} {h : Handed}
    (hclear : (n.serve request).2.Clear h) : n.Clear h := by
  have htaken : ∀ t ∈ n.taken, t ∈ (n.serve request).2.taken := by
    rw [serve_taken]
    exact fun t ht => List.mem_cons_of_mem _ ht
  have hbases : ∀ b ∈ n.bases, b ∈ (n.serve request).2.bases := by
    rw [serve_bases]
    intro b hb
    split
    · exact List.mem_cons_of_mem _ hb
    · exact hb
  obtain ⟨hnew, hderived⟩ := (isFree_iff _ _).mp hclear.free
  have hfree : n.isFree h.name = true :=
    (isFree_iff _ _).mpr ⟨fun ht => hnew (htaken _ ht), fun b hb => hderived b (hbases b hb)⟩
  refine ⟨hfree, fun hbase => (isFreeBase_iff _ _).mpr ⟨hfree, fun t ht => ?_⟩⟩
  exact ((isFreeBase_iff _ _).mp (hclear.base hbase)).2 t (htaken t ht)

/-- A name handed out stays apart from all that is clear afterwards. -/
theorem serve_apart {n : Names} {request : Request} {g : Handed}
    (hclear : (n.serve request).2.Clear g) : (n.serve request).1.Apart g := by
  obtain ⟨hnew, hderived⟩ := (isFree_iff _ _).mp hclear.free
  rw [serve_taken, List.mem_cons, not_or] at hnew
  have hright : (n.serve request).1.isBase = true → ¬ InSpace (n.serve request).1.name g.name := by
    intro hbase
    rw [serve_bases, if_pos hbase] at hderived
    exact not_inSpace_of_derives (hderived _ List.mem_cons_self)
  have hleft : g.isBase = true → ¬ InSpace g.name (n.serve request).1.name := by
    intro hbase
    have hoff := ((isFreeBase_iff _ _).mp (hclear.base hbase)).2
    rw [serve_taken] at hoff
    exact not_inSpace_of_derives (hoff _ List.mem_cons_self)
  have hnames : sameName (n.serve request).1.name g.name = false :=
    beq_eq_false_iff_ne.mpr fun hsame => hnew.1 hsame.symm
  refine ⟨hnames, hright, hleft, fun hbase hbase' s t hs ht => ?_⟩
  rw [Bool.eq_false_iff]
  intro hsame
  rcases bases_of_inSpace hs ht hsame with hbases | hspace | hspace
  · simp [hnames] at hbases
  · exact hright hbase hspace
  · exact hleft hbase' hspace

/-- All names handed out are clear before the first request, and each stays apart from the later ones. -/
theorem handedOut_clear (n : Names) (requests : List Request) :
    (∀ h ∈ n.handedOut requests, n.Clear h) ∧ (n.handedOut requests).Pairwise Handed.Apart := by
  induction requests generalizing n with
  | nil => exact ⟨nofun, .nil⟩
  | cons request requests ih =>
    obtain ⟨hclear, hapart⟩ := ih (n.serve request).2
    refine ⟨List.forall_mem_cons.mpr ⟨serve_clear n request, fun h hh => (hclear h hh).before⟩, ?_⟩
    exact List.pairwise_cons.mpr ⟨fun g hg => serve_apart (hclear g hg), hapart⟩

end Runs

/-- A search without a bound ends for every call, and with the name that is handed out; and the names that
a sequence of calls hands out, from the first on, stay apart. -/
theorem requests_apart :
    (∀ (n : Names) (request : Request) (name : String),
      RequestEnds n name request ↔ name = (n.serve request).1.name) ∧
    ∀ requests : List Request,
      (handedOut ⟨[], []⟩ requests).Pairwise Handed.Apart :=
  ⟨fun n request _ => requestEnds_iff n request, fun requests => (handedOut_clear _ requests).2⟩

example : (handedOut ⟨[], []⟩ [.base "Ids", .single "ids_1", .base "Ids_1", .base "Ids"]).map
    Handed.name = ["Ids", "ids_1_n2", "Ids_1_n3", "Ids_n2"] := by decide +kernel

end Names
end ShapeSql
