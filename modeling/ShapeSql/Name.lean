namespace ShapeSql

/-- The text with ASCII capitals replaced by small letters. -/
def lowerAscii (text : String) : String :=
  String.ofList (text.toList.map Char.toLower)

/-- Equality of names up to the case of ASCII letters. -/
def sameName (left right : String) : Bool :=
  lowerAscii left == lowerAscii right

/-- The first item named exactly `wanted`, else the first one named so up to case. -/
def findNamed (nameOf : α → String) (wanted : String) (items : List α) : Option α :=
  match items.find? fun item => nameOf item == wanted with
  | some item => some item
  | none => items.find? fun item => sameName (nameOf item) wanted

theorem mem_of_findNamed {nameOf : α → String} {wanted : String} {items : List α} {item : α}
    (h : findNamed nameOf wanted items = some item) : item ∈ items := by
  unfold findNamed at h
  split at h
  · rename_i found hfound
    cases h
    exact List.mem_of_find?_eq_some hfound
  · exact List.mem_of_find?_eq_some h

/-- The desired name if it is free, else the first free one of its numbered spellings from 2 on. At
least one of `tries` spellings must be free. -/
def firstFree (free : String → Bool) (desired : String) (numbered : Nat → String) (tries : Nat) :
    String :=
  if free desired then desired
  else (((List.range tries).map fun n => numbered (n + 2)).find? free).getD desired

theorem sameName_self (name : String) : sameName name name = true := by
  simp [sameName]

theorem sameName_comm (left right : String) : sameName left right = sameName right left := by
  simp only [sameName]
  exact Bool.beq_comm

end ShapeSql
