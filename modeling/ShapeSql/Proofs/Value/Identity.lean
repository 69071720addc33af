import ShapeSql.Graph.Entity

namespace ShapeSql

namespace Value

mutual

/-- Whether two values are the same data. -/
def isData : Value → Value → Bool
  | .null, .null => true
  | .bool a, .bool b => decide (a = b)
  | .i32 a, .i32 b => decide (a = b)
  | .i64 a, .i64 b => decide (a = b)
  | .f64 a, .f64 b => decide (a = b)
  | .text a, .text b => decide (a = b)
  | .bytes a, .bytes b => decide (a = b)
  | .uuid a, .uuid b => decide (a = b)
  | .list a, .list b => areData a b
  | .record a, .record b => areMembers a b
  | _, _ => false

def areData : List Value → List Value → Bool
  | [], [] => true
  | a :: as, b :: bs => a.isData b && areData as bs
  | _, _ => false

def areMembers : List (String × Value) → List (String × Value) → Bool
  | [], [] => true
  | (n, a) :: as, (m, b) :: bs => decide (n = m) && a.isData b && areMembers as bs
  | _, _ => false

end

mutual

-- Compound values need the lemmas of their elements; all others are compared at once.
theorem isData_iff : ∀ a b : Value, a.isData b = true ↔ a = b
  | .list as, b => by
    cases b <;> simp [isData, areData_iff as]
  | .record as, b => by
    cases b <;> simp [isData, areMembers_iff as]
  | .null, b | .bool _, b | .i32 _, b | .i64 _, b | .f64 _, b | .text _, b | .bytes _, b
  | .uuid _, b => by
    cases b <;> simp [isData]

theorem areData_iff : ∀ as bs : List Value, areData as bs = true ↔ as = bs
  | [], bs => by cases bs <;> simp [areData]
  | a :: as, bs => by
    cases bs with
    | nil => simp [areData]
    | cons b bs => simp [areData, isData_iff a b, areData_iff as bs]

theorem areMembers_iff : ∀ as bs : List (String × Value), areMembers as bs = true ↔ as = bs
  | [], bs => by cases bs <;> simp [areMembers]
  | (n, a) :: as, bs => by
    cases bs with
    | nil => simp [areMembers]
    | cons b bs =>
      obtain ⟨m, b⟩ := b
      simp [areMembers, isData_iff a b, areMembers_iff as bs]

end

instance : DecidableEq Value := fun a b => decidable_of_iff (a.isData b = true) (isData_iff a b)

/-- The values that identify entities: neither floats nor compound. -/
def isPlain : Value → Bool
  | .null | .bool _ | .i32 _ | .i64 _ | .text _ | .bytes _ | .uuid _ => true
  | .f64 _ | .list _ | .record _ => false

/-- On plain values equality as `same` has it is equality. -/
theorem same_iff_of_isPlain (a b : Value) (ha : a.isPlain = true) : a.same b = true ↔ a = b := by
  cases a with
  | f64 _ | list _ | record _ => simp [isPlain] at ha
  | null | bool _ | i32 _ | i64 _ | text _ | bytes _ | uuid _ => cases b <;> simp [same]

theorem sameItems_iff_of_isPlain (as bs : List Value) (ha : ∀ a ∈ as, a.isPlain = true) :
    sameItems as bs = true ↔ as = bs := by
  induction as generalizing bs with
  | nil => cases bs <;> simp [sameItems]
  | cons a as ih =>
    cases bs with
    | nil => simp [sameItems]
    | cons b bs =>
      have hhead := same_iff_of_isPlain a b (ha a List.mem_cons_self)
      have htail := ih bs fun v hv => ha v (List.mem_cons_of_mem a hv)
      simp only [sameItems, Bool.and_eq_true, hhead, htail, List.cons.injEq]

end Value

deriving instance DecidableEq for RowKey

namespace RowKey

def IsPlain (key : RowKey) : Prop := ∀ v ∈ key.values, v.isPlain = true

instance (key : RowKey) : Decidable key.IsPlain := inferInstanceAs (Decidable (∀ v ∈ key.values, _))

/-- The digest adds nothing on plain keys. -/
theorem identifies_iff_of_isPlain (a b : RowKey) (ha : a.IsPlain) : a.identifies b = true ↔ a = b := by
  have hvalues := Value.sameItems_iff_of_isPlain a.values b.values ha
  simp only [identifies, same, Bool.and_eq_true, beq_iff_eq]
  constructor
  · intro h
    have hv : a.values = b.values := hvalues.mp h.2
    cases a
    cases b
    exact congrArg RowKey.mk hv
  · rintro rfl
    exact ⟨rfl, hvalues.mpr rfl⟩

end RowKey
end ShapeSql
