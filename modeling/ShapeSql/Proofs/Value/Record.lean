import Mathlib.Data.List.Nodup
import ShapeSql.Value.Basic

namespace ShapeSql

/-- The names with one more at the end, unless it is among them. -/
def withName (names : List String) (name : String) : List String :=
  if name ∈ names then names else names ++ [name]

namespace Record

@[simp] theorem names_cons (m : String × Value) (r : Record) : names (m :: r) = m.1 :: names r := rfl

theorem names_insert (r : Record) (name : String) (value : Value) :
    (r.insert name value).names = withName r.names name := by
  induction r with
  | nil => rfl
  | cons m rest ih =>
    by_cases hname : m.1 = name
    · rw [insert, if_pos hname, names_cons, names_cons, hname, withName,
        if_pos List.mem_cons_self]
    · rw [insert, if_neg hname, names_cons, names_cons, ih]
      have hmem : name ∈ m.1 :: names rest ↔ name ∈ names rest := by
        rw [List.mem_cons]
        exact ⟨fun h => h.elim (fun he => absurd he.symm hname) id, Or.inr⟩
      simp only [withName, hmem]
      split
      · rfl
      · rfl

theorem names_insertAll (added : List (String × Value)) (r : Record) :
    (added.foldl (fun r p => r.insert p.1 p.2) r).names =
      (added.map Prod.fst).foldl withName r.names := by
  induction added generalizing r with
  | nil => rfl
  | cons p added ih => rw [List.foldl_cons, ih, names_insert, List.map_cons, List.foldl_cons]

@[simp] theorem getExact?_insert_self (r : Record) (name : String) (value : Value) :
    (r.insert name value).getExact? name = some value := by
  induction r with
  | nil => simp [insert, getExact?]
  | cons m rest ih =>
    by_cases hname : m.1 = name
    · simp [insert, hname, getExact?]
    · have hskip : (m.1 == name) = false := beq_eq_false_iff_ne.mpr hname
      rw [insert, if_neg hname, getExact?, List.find?_cons, hskip]
      exact ih

theorem getExact?_insert_of_ne (r : Record) {name other : String} (h : name ≠ other) (value : Value) :
    (r.insert name value).getExact? other = r.getExact? other := by
  have hskip : (name == other) = false := beq_eq_false_iff_ne.mpr h
  induction r with
  | nil => simp [insert, getExact?, hskip]
  | cons m rest ih =>
    by_cases hname : m.1 = name
    · rw [insert, if_pos hname, getExact?, getExact?, List.find?_cons, List.find?_cons, hskip, hname,
        hskip]
    · rw [insert, if_neg hname, getExact?, getExact?, List.find?_cons, List.find?_cons]
      cases m.1 == other with
      | true => rfl
      | false => exact ih

theorem getExact?_append (r more : Record) (name : String) :
    getExact? (r ++ more) name = (r.getExact? name).or (more.getExact? name) := by
  rw [getExact?, List.find?_append, Option.map_or]
  rfl

theorem getExact?_isSome_iff (r : Record) (name : String) :
    (r.getExact? name).isSome = true ↔ name ∈ r.names := by
  rw [getExact?, Option.isSome_map, List.find?_isSome, names, List.mem_map]
  constructor
  · rintro ⟨m, hm, hname⟩
    exact ⟨m, hm, eq_of_beq hname⟩
  · rintro ⟨m, hm, hname⟩
    exact ⟨m, hm, beq_iff_eq.mpr hname⟩

end Record

theorem mem_withName {names : List String} {name other : String} :
    other ∈ withName names name ↔ other ∈ names ∨ other = name := by
  unfold withName
  split
  · rename_i h
    exact ⟨Or.inl, fun hor => hor.elim id fun he => he ▸ h⟩
  · rw [List.mem_append, List.mem_singleton]

theorem nodup_withName {names : List String} (h : names.Nodup) (name : String) :
    (withName names name).Nodup := by
  unfold withName
  split
  · exact h
  · rename_i hnew
    apply List.nodup_append.mpr
    refine ⟨h, List.nodup_singleton _, ?_⟩
    intro old hold last hlast heq
    rw [List.mem_singleton.mp hlast] at heq
    exact hnew (heq ▸ hold)

namespace Record

/-- Adding members adds their names. -/
theorem mem_names_insertAll (added : List (String × Value)) (r : Record) (name : String) :
    name ∈ (added.foldl (fun r p => r.insert p.1 p.2) r).names ↔
      name ∈ r.names ∨ name ∈ added.map Prod.fst := by
  induction added generalizing r with
  | nil => simp
  | cons p added ih =>
    rw [List.foldl_cons, ih, names_insert, mem_withName, List.map_cons, List.mem_cons, or_assoc]

theorem nodup_names_insertAll (added : List (String × Value)) {r : Record} (h : r.names.Nodup) :
    (added.foldl (fun r p => r.insert p.1 p.2) r).names.Nodup := by
  induction added generalizing r with
  | nil => exact h
  | cons p added ih =>
    rw [List.foldl_cons]
    apply ih
    rw [names_insert]
    exact nodup_withName h p.1

theorem insert_of_not_mem {r : Record} {name : String} (value : Value) (h : name ∉ r.names) :
    r.insert name value = r ++ [(name, value)] := by
  induction r with
  | nil => rfl
  | cons m rest ih =>
    rw [names_cons, List.mem_cons, not_or] at h
    rw [insert, if_neg (Ne.symm h.1), ih h.2, List.cons_append]

theorem mem_of_mem_insert {r : Record} {name : String} {value : Value} {m : String × Value}
    (h : m ∈ r.insert name value) : m = (name, value) ∨ m ∈ r := by
  induction r with
  | nil => exact Or.inl (List.mem_singleton.mp h)
  | cons first rest ih =>
    rw [insert] at h
    split at h
    · exact (List.mem_cons.mp h).imp id (List.mem_cons_of_mem _)
    · rcases List.mem_cons.mp h with rfl | h
      · exact Or.inr List.mem_cons_self
      · exact (ih h).imp id (List.mem_cons_of_mem _)

/-- A record has only the members that it is made of. -/
theorem mem_of_mem_ofMembers {members : List (String × Value)} {m : String × Value}
    (h : m ∈ ofMembers members) : m ∈ members := by
  have hfold : ∀ (rest : List (String × Value)) (r : Record),
      m ∈ rest.foldl (fun r member => insert r member.1 member.2) r → m ∈ r ∨ m ∈ rest := by
    intro rest
    induction rest with
    | nil => exact fun r hm => Or.inl hm
    | cons first rest ih =>
      intro r hm
      rw [List.foldl_cons] at hm
      rcases ih _ hm with hm | hm
      · rcases mem_of_mem_insert hm with rfl | hm
        · exact Or.inr List.mem_cons_self
        · exact Or.inl hm
      · exact Or.inr (List.mem_cons_of_mem _ hm)
  exact (hfold members [] h).resolve_left List.not_mem_nil

/-- A member is in a record made of members if no other one has its name. -/
theorem mem_ofMembers {members : List (String × Value)} {m : String × Value} (hm : m ∈ members)
    (halone : ∀ other ∈ members, other.1 = m.1 → other = m) : m ∈ ofMembers members := by
  have hname : m.1 ∈ (ofMembers members).names :=
    (mem_names_insertAll members [] m.1).mpr (.inr (List.mem_map_of_mem hm))
  obtain ⟨other, hother, hsame⟩ := List.mem_map.mp hname
  exact halone other (mem_of_mem_ofMembers hother) hsame ▸ hother

/-- Members of distinct names stay as they are. -/
theorem ofMembers_of_nodup {members : List (String × Value)} (h : (members.map Prod.fst).Nodup) :
    ofMembers members = members := by
  have hfold : ∀ (rest r : List (String × Value)), ((r ++ rest).map Prod.fst).Nodup →
      rest.foldl (fun r member => insert r member.1 member.2) r = r ++ rest := by
    intro rest
    induction rest with
    | nil => exact fun r _ => (List.append_nil r).symm
    | cons m rest ih =>
      intro r hnodup
      have hnew : m.1 ∉ names r := by
        rw [List.map_append, List.nodup_append] at hnodup
        intro hmem
        exact hnodup.2.2 m.1 hmem m.1 List.mem_cons_self rfl
      rw [List.foldl_cons, insert_of_not_mem m.2 hnew, ih, List.append_assoc]
      · rfl
      · rw [List.append_assoc]
        exact hnodup
  exact hfold members [] h

end Record

end ShapeSql
