import Mathlib.Data.List.Basic
import ShapeSql.Proofs.Value.Identity
import ShapeSql.Proofs.Value.Record

/-!
What digests tell apart. A digest can be read back: values with one digest are the same data. Equality
is coarser, since it knows one zero only and takes records without regard to order. So equal values have
one digest exactly if their zeros have the same signs and their records the same order, and only then is
an entity found again under a key that equals its own.
-/

namespace ShapeSql

namespace Value

mutual

/-- No record has a name twice, at any depth. Records that are made by inserting are like this. -/
def isProper : Value → Bool
  | .list items => areProper items
  | .record members => decide (Record.names members).Nodup && haveProper members
  | .null | .bool _ | .i32 _ | .i64 _ | .f64 _ | .text _ | .bytes _ | .uuid _ => true

def areProper : List Value → Bool
  | [] => true
  | v :: vs => v.isProper && areProper vs

def haveProper : List (String × Value) → Bool
  | [] => true
  | (_, v) :: rest => v.isProper && haveProper rest

end

mutual

/-- Two zeros at one place have the same sign and two records their names in the same order, at any
depth. -/
def aligned : Value → Value → Bool
  | .f64 a, .f64 b => !(a.isZero && b.isZero) || a.bits == b.bits
  | .list as, .list bs => alignedItems as bs
  | .record as, .record bs => decide (Record.names as = Record.names bs) && alignedMembers as bs
  | _, _ => true

def alignedItems : List Value → List Value → Bool
  | a :: as, b :: bs => a.aligned b && alignedItems as bs
  | _, _ => true

def alignedMembers : List (String × Value) → List (String × Value) → Bool
  | (_, a) :: as, (_, b) :: bs => a.aligned b && alignedMembers as bs
  | _, _ => true

end

section Reading

variable {xs ys : List DigestWord}

theorem bytes_append_inj {as bs : List UInt8} (hlength : as.length = bs.length)
    (h : as.map (fun b => DigestWord.number b.toNat) ++ xs =
      bs.map (fun b => DigestWord.number b.toNat) ++ ys) : as = bs ∧ xs = ys := by
  obtain ⟨hmap, hrest⟩ := List.append_inj h (by rw [List.length_map, List.length_map, hlength])
  refine ⟨List.map_injective_iff.mpr (fun a b hab => ?_) hmap, hrest⟩
  rw [DigestWord.number.injEq, Int.ofNat_inj] at hab
  exact UInt8.toNat_inj.mp hab

mutual

-- The variant comes first and says how to read on; lengths come before what they count. So a digest is
-- read from the left, and what follows it does not matter.
theorem digest_append_inj : ∀ (a b : Value) {xs ys : List DigestWord},
    a.digest ++ xs = b.digest ++ ys → a = b ∧ xs = ys
  | .list as, b, xs, ys, h => by
    cases b with
    | list bs =>
      simp only [digest, List.cons_append, List.cons.injEq, DigestWord.count.injEq, true_and] at h
      obtain ⟨rfl, hrest⟩ := digestItems_append_inj as bs h.1 h.2
      exact ⟨rfl, hrest⟩
    | _ => simp [digest] at h
  | .record as, b, xs, ys, h => by
    cases b with
    | record bs =>
      simp only [digest, List.cons_append, List.cons.injEq, DigestWord.count.injEq, true_and] at h
      obtain ⟨rfl, hrest⟩ := digestMembers_append_inj as bs h.1 h.2
      exact ⟨rfl, hrest⟩
    | _ => simp [digest] at h
  | .bytes as, b, xs, ys, h => by
    cases b with
    | bytes bs =>
      simp only [digest, List.cons_append, List.cons.injEq, DigestWord.count.injEq, true_and] at h
      obtain ⟨rfl, hrest⟩ := bytes_append_inj h.1 h.2
      exact ⟨rfl, hrest⟩
    | _ => simp [digest] at h
  | .bool a, b, xs, ys, h => by
    cases b with
    | bool b => cases a <;> cases b <;> simp_all [digest]
    | _ => simp [digest] at h
  | .null, b, xs, ys, h | .i32 _, b, xs, ys, h | .i64 _, b, xs, ys, h | .text _, b, xs, ys, h => by
    cases b <;> simp_all [digest, Int32.toInt_inj, Int64.toInt_inj]
  | .f64 a, b, xs, ys, h => by
    cases b with
    | f64 b =>
      simp only [digest, List.cons_append, List.nil_append, List.cons.injEq, DigestWord.number.injEq,
        Int.ofNat_inj, UInt64.toNat_inj, true_and] at h
      exact ⟨congrArg Value.f64 (congrArg Double.mk h.1), h.2⟩
    | _ => simp [digest] at h
  | .uuid a, b, xs, ys, h => by
    cases b with
    | uuid b =>
      simp only [digest, List.cons_append, List.nil_append, List.cons.injEq, DigestWord.number.injEq,
        Int.ofNat_inj, BitVec.toNat_inj, true_and] at h
      exact ⟨congrArg Value.uuid (congrArg Uuid.mk h.1), h.2⟩
    | _ => simp [digest] at h

theorem digestItems_append_inj : ∀ (as bs : List Value) {xs ys : List DigestWord},
    as.length = bs.length → digestItems as ++ xs = digestItems bs ++ ys → as = bs ∧ xs = ys
  | [], bs, xs, ys, hlength, h => by
    obtain rfl := List.length_eq_zero_iff.mp hlength.symm
    exact ⟨rfl, h⟩
  | a :: as, bs, xs, ys, hlength, h => by
    cases bs with
    | nil => simp at hlength
    | cons b bs =>
      rw [digestItems, digestItems, List.append_assoc, List.append_assoc] at h
      obtain ⟨rfl, hitems⟩ := digest_append_inj a b h
      obtain ⟨rfl, hrest⟩ := digestItems_append_inj as bs (by simpa using hlength) hitems
      exact ⟨rfl, hrest⟩

theorem digestMembers_append_inj : ∀ (as bs : List (String × Value)) {xs ys : List DigestWord},
    as.length = bs.length → digestMembers as ++ xs = digestMembers bs ++ ys → as = bs ∧ xs = ys
  | [], bs, xs, ys, hlength, h => by
    obtain rfl := List.length_eq_zero_iff.mp hlength.symm
    exact ⟨rfl, h⟩
  | (name, a) :: as, bs, xs, ys, hlength, h => by
    cases bs with
    | nil => simp at hlength
    | cons b bs =>
      obtain ⟨other, b⟩ := b
      simp only [digestMembers, List.cons_append, List.append_assoc, List.cons.injEq,
        DigestWord.text.injEq] at h
      obtain ⟨rfl, h⟩ := h
      obtain ⟨rfl, hmembers⟩ := digest_append_inj a b h
      obtain ⟨rfl, hrest⟩ := digestMembers_append_inj as bs (by simpa using hlength) hmembers
      exact ⟨rfl, hrest⟩

end

/-- A digest is that of one value only. -/
theorem digest_inj (a b : Value) : a.digest = b.digest ↔ a = b := by
  constructor
  · intro h
    exact (digest_append_inj a b (congrArg (· ++ []) h)).1
  · rintro rfl
    rfl

end Reading

section Equality

/-- Equal numbers are the same, two zeros of different signs aside. -/
theorem eq_of_numEq {a b : Double} (h : a.numEq b = true)
    (haligned : (!(a.isZero && b.isZero) || a.bits == b.bits) = true) : a = b := by
  obtain ⟨a⟩ := a
  obtain ⟨b⟩ := b
  simp only [Double.numEq, Bool.and_eq_true, Bool.or_eq_true, beq_iff_eq] at h
  simp only [Bool.or_eq_true, Bool.not_eq_true', beq_iff_eq] at haligned
  rcases h.2 with hbits | ⟨ha, hb⟩
  · exact congrArg Double.mk hbits
  · rcases haligned with hzero | hbits
    · rw [ha, hb] at hzero
      cases hzero
    · exact congrArg Double.mk hbits

/-- A member that none of the others is named like is not looked for. -/
theorem sameMembers_cons_of_not_mem {members : List (String × Value)} {name : String} (v : Value)
    (others : List (String × Value)) (h : name ∉ Record.names members) :
    sameMembers members ((name, v) :: others) = sameMembers members others := by
  induction members with
  | nil => rfl
  | cons m rest ih =>
    obtain ⟨own, value⟩ := m
    rw [Record.names_cons, List.mem_cons, not_or] at h
    have hskip : (name == own) = false := beq_eq_false_iff_ne.mpr h.1
    have hfound : Record.getExact? ((name, v) :: others) own = Record.getExact? others own := by
      rw [Record.getExact?, Record.getExact?, List.find?_cons, hskip]
    rw [sameMembers, sameMembers, hfound, ih h.2]

/-- A record is compared member by member with one that has its names in the same order. -/
theorem sameMembers_cons_cons {name : String} {a b : Value} {as bs : List (String × Value)}
    (h : name ∉ Record.names as) :
    sameMembers ((name, a) :: as) ((name, b) :: bs) = (a.same b && sameMembers as bs) := by
  have hfound : Record.getExact? ((name, b) :: bs) name = some b := by
    rw [Record.getExact?, List.find?_cons, beq_self_eq_true]
    rfl
  rw [sameMembers, hfound, sameMembers_cons_of_not_mem b bs h]

mutual

/-- Equal values that are aligned are the same data. -/
theorem eq_of_same_of_aligned : ∀ (a b : Value), a.isProper = true → a.same b = true →
    a.aligned b = true → a = b
  | .list as, b, hproper, hsame, haligned => by
    cases b with
    | list bs => rw [eq_of_sameItems_of_aligned as bs hproper hsame haligned]
    | _ => simp [same] at hsame
  | .record as, b, hproper, hsame, haligned => by
    cases b with
    | record bs =>
      rw [isProper, Bool.and_eq_true, decide_eq_true_eq] at hproper
      rw [same, Bool.and_eq_true] at hsame
      rw [aligned, Bool.and_eq_true, decide_eq_true_eq] at haligned
      rw [eq_of_sameMembers_of_aligned as bs hproper.1 hproper.2 haligned.1 hsame.2 haligned.2]
    | _ => simp [same] at hsame
  | .f64 a, b, _, hsame, haligned => by
    cases b with
    | f64 b => rw [eq_of_numEq hsame haligned]
    | _ => simp [same] at hsame
  | .null, b, _, hsame, _ | .bool _, b, _, hsame, _ | .i32 _, b, _, hsame, _ | .i64 _, b, _, hsame, _
  | .text _, b, _, hsame, _ | .bytes _, b, _, hsame, _ | .uuid _, b, _, hsame, _ =>
    (same_iff_of_isPlain _ b rfl).mp hsame

theorem eq_of_sameItems_of_aligned : ∀ (as bs : List Value), areProper as = true →
    sameItems as bs = true → alignedItems as bs = true → as = bs
  | [], bs, _, hsame, _ => by
    cases bs with
    | nil => rfl
    | cons b bs => cases hsame
  | a :: as, bs, hproper, hsame, haligned => by
    cases bs with
    | nil => cases hsame
    | cons b bs =>
      rw [areProper, Bool.and_eq_true] at hproper
      rw [sameItems, Bool.and_eq_true] at hsame
      rw [alignedItems, Bool.and_eq_true] at haligned
      rw [eq_of_same_of_aligned a b hproper.1 hsame.1 haligned.1,
        eq_of_sameItems_of_aligned as bs hproper.2 hsame.2 haligned.2]

theorem eq_of_sameMembers_of_aligned : ∀ (as bs : List (String × Value)),
    (Record.names as).Nodup → haveProper as = true → Record.names as = Record.names bs →
      sameMembers as bs = true → alignedMembers as bs = true → as = bs
  | [], bs, _, _, hnames, _, _ => by
    cases bs with
    | nil => rfl
    | cons b bs => cases hnames
  | (name, a) :: as, bs, hnodup, hproper, hnames, hsame, haligned => by
    cases bs with
    | nil => cases hnames
    | cons b bs =>
      obtain ⟨other, b⟩ := b
      rw [Record.names_cons, Record.names_cons, List.cons.injEq] at hnames
      obtain ⟨rfl, hnames⟩ := hnames
      rw [Record.names_cons, List.nodup_cons] at hnodup
      rw [haveProper, Bool.and_eq_true] at hproper
      rw [sameMembers_cons_cons hnodup.1, Bool.and_eq_true] at hsame
      rw [alignedMembers, Bool.and_eq_true] at haligned
      rw [eq_of_same_of_aligned a b hproper.1 hsame.1 haligned.1,
        eq_of_sameMembers_of_aligned as bs hnodup.2 hproper.2 hnames hsame.2 haligned.2]

end

mutual

theorem aligned_self : ∀ v : Value, v.aligned v = true
  | .list items => alignedItems_self items
  | .record members => by
    rw [aligned, alignedMembers_self members, Bool.and_true, decide_eq_true_eq]
  | .f64 x => by simp [aligned]
  | .null | .bool _ | .i32 _ | .i64 _ | .text _ | .bytes _ | .uuid _ => rfl

theorem alignedItems_self : ∀ items : List Value, alignedItems items items = true
  | [] => rfl
  | v :: vs => by
    rw [alignedItems, aligned_self v, alignedItems_self vs]
    rfl

theorem alignedMembers_self : ∀ members : List (String × Value),
    alignedMembers members members = true
  | [] => rfl
  | (_, v) :: rest => by
    rw [alignedMembers, aligned_self v, alignedMembers_self rest]
    rfl

end

/-- Equal values have one digest exactly if they are aligned. -/
theorem digest_eq_iff_aligned {a b : Value} (hproper : a.isProper = true) (h : a.same b = true) :
    a.digest = b.digest ↔ a.aligned b = true := by
  rw [digest_inj]
  constructor
  · rintro rfl
    exact aligned_self a
  · exact eq_of_same_of_aligned a b hproper h

end Equality

end Value

namespace RowKey

/-- No record among the values has a name twice, at any depth. -/
def IsProper (key : RowKey) : Prop := Value.areProper key.values = true

/-- The values are aligned one by one. -/
def Aligned (a b : RowKey) : Prop := Value.alignedItems a.values b.values = true

instance (key : RowKey) : Decidable key.IsProper := inferInstanceAs (Decidable (_ = true))

instance (a b : RowKey) : Decidable (a.Aligned b) := inferInstanceAs (Decidable (_ = true))

variable {a b : RowKey}

theorem digest_inj (a b : RowKey) : a.digest = b.digest ↔ a = b := by
  constructor
  · intro h
    rw [digest, digest, List.cons.injEq, DigestWord.count.injEq] at h
    have hvalues := (Value.digestItems_append_inj a.values b.values h.1 (congrArg (· ++ []) h.2)).1
    cases a
    cases b
    exact congrArg RowKey.mk hvalues
  · rintro rfl
    rfl

/-- Of equal keys the aligned ones identify the same entity. -/
theorem identifies_iff_aligned (hproper : a.IsProper) :
    a.identifies b = true ↔ a.same b = true ∧ a.Aligned b := by
  rw [identifies, Bool.and_eq_true, beq_iff_eq, digest_inj]
  constructor
  · rintro ⟨rfl, hsame⟩
    exact ⟨hsame, Value.alignedItems_self a.values⟩
  · rintro ⟨hsame, haligned⟩
    refine ⟨?_, hsame⟩
    have hvalues := Value.eq_of_sameItems_of_aligned a.values b.values hproper hsame haligned
    cases a
    cases b
    exact congrArg RowKey.mk hvalues

end RowKey

namespace Entities

/-- An entity is added where none is identified by its key. -/
theorem upsert_eq_append_iff (fresh : Entity) (f : Entity → Entity) (es : Entities) :
    es.upsert fresh f = es ++ [f fresh] ↔ ∀ e ∈ es, ¬e.key.identifies fresh.key = true := by
  induction es with
  | nil => exact iff_of_true rfl (List.forall_mem_nil _)
  | cons e es ih =>
    rw [upsert, List.forall_mem_cons]
    split
    · rename_i hfound
      refine iff_of_false (fun h => ?_) fun h => h.1 hfound
      have hlength := congrArg List.length h
      simp at hlength
    · rename_i hother
      rw [List.cons_append, List.cons.injEq, and_iff_right rfl, and_iff_right hother]
      exact ih

/-- A collection of one entity compares the values of its key only. -/
theorem find?_isSome_iff (es : Entities) (key : RowKey) : (es.find? key).isSome = true ↔
    ∃ e ∈ es, e.key.same key = true ∧ (es = [e] ∨ e.key.identifies key = true) := by
  match es with
  | [] => simp [find?]
  | [e] => simp [find?]
  | e :: e' :: es =>
    rw [find?, List.find?_isSome]
    · constructor
      · rintro ⟨found, hmem, hfound⟩
        exact ⟨found, hmem, (Bool.and_eq_true _ _ ▸ hfound).2, Or.inr hfound⟩
      · rintro ⟨found, hmem, _, hone | hfound⟩
        · cases hone
        · exact ⟨found, hmem, hfound⟩
    · exact nofun

/-- Equal values have one digest exactly if their zeros have the same signs and their records the same
order. So a collection adds an entity unless one with an equal key is aligned in this way, and finds one
by a key if there is such a one in it or just one with an equal key. -/
theorem digest_of_same {a : Value} (ha : a.isProper = true) {es : Entities}
    (hes : ∀ e ∈ es, e.key.IsProper) :
    (∀ b : Value, a.same b = true → (a.digest = b.digest ↔ a.aligned b = true)) ∧
    ∀ key : RowKey,
      (∀ (fresh : Entity) (f : Entity → Entity), fresh.key = key →
        (es.upsert fresh f = es ++ [f fresh] ↔
          ∀ e ∈ es, e.key.same key = true → ¬e.key.Aligned key)) ∧
      ((es.find? key).isSome = true ↔
        ∃ e ∈ es, e.key.same key = true ∧ (es = [e] ∨ e.key.Aligned key)) := by
  refine ⟨fun b hsame => Value.digest_eq_iff_aligned ha hsame, fun key => ⟨?_, ?_⟩⟩
  · rintro fresh f rfl
    rw [upsert_eq_append_iff]
    refine forall₂_congr fun e he => ?_
    rw [RowKey.identifies_iff_aligned (hes e he), not_and]
  · rw [find?_isSome_iff]
    refine exists_congr fun e => and_congr_right fun he => and_congr_right fun hsame => ?_
    rw [RowKey.identifies_iff_aligned (hes e he), and_iff_right hsame]

/-- A reading whose unit comes first is equal to one whose unit comes last, but has another digest; a
collection that holds the one takes the other for a new one. -/
theorem digest_of_same_readings :
    let shown := Value.record [("Value", .f64 ⟨0⟩), ("Unit", .text "m")]
    let turned := Value.record [("Unit", .text "m"), ("Value", .f64 ⟨0⟩)]
    let es : Entities := [.ofRow ⟨[shown]⟩ 0 [], .ofRow ⟨[.i32 7]⟩ 1 []]
    shown.isProper = true ∧ (∀ e ∈ es, e.key.IsProper) ∧ shown.same turned = true ∧
      (shown.digest = turned.digest ↔ shown.aligned turned = true) ∧
      (es.upsert (.ofRow ⟨[turned]⟩ 2 []) id = es ++ [.ofRow ⟨[turned]⟩ 2 []] ↔
        ∀ e ∈ es, e.key.same ⟨[turned]⟩ = true → ¬e.key.Aligned ⟨[turned]⟩) ∧
      ((es.find? ⟨[shown]⟩).isSome = true ↔
        ∃ e ∈ es, e.key.same ⟨[shown]⟩ = true ∧ (es = [e] ∨ e.key.Aligned ⟨[shown]⟩)) := by
  intro shown turned es
  have hshown : shown.isProper = true := by decide
  have hes : ∀ e ∈ es, e.key.IsProper := by decide
  obtain ⟨hdigest, hkeys⟩ := digest_of_same hshown hes
  exact ⟨hshown, hes, by decide, hdigest turned (by decide), (hkeys _).1 _ id rfl, (hkeys _).2⟩

/-- The two zeros are equal, and so are records in another order, but they have digests of their own, and
an entity under one of the zeros is not found under the other. -/
theorem same_digest_differs :
    ((Value.f64 ⟨0⟩).same (.f64 ⟨0x8000000000000000⟩) = true ∧
      (Value.f64 ⟨0⟩).digest ≠ (Value.f64 ⟨0x8000000000000000⟩).digest) ∧
    ((Value.record [("a", .null), ("b", .bool true)]).same (.record [("b", .bool true), ("a", .null)]) = true ∧
      (Value.record [("a", .null), ("b", .bool true)]).digest ≠
        (Value.record [("b", .bool true), ("a", .null)]).digest) ∧
    (upsert (.ofRow ⟨[.f64 ⟨0x8000000000000000⟩]⟩ 1 []) id [.ofRow ⟨[.f64 ⟨0⟩]⟩ 0 []]).length = 2 := by
  decide

end Entities

end ShapeSql
