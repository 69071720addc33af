import ShapeSql.Proofs.Schema.WellFormed

namespace ShapeSql

/-- The name itself is among the names, but behind another spelling of it. -/
def Overtaken (names : List String) (name : String) : Prop :=
  name ∈ names ∧ ∃ other ∈ names.takeWhile (· != name), sameName other name = true

instance (names : List String) (name : String) : Decidable (Overtaken names name) :=
  inferInstanceAs (Decidable (name ∈ names ∧ ∃ other ∈ names.takeWhile (· != name), _))

section Names

variable {α : Type} {nameOf : α → String} {wanted : String} {first : α}

/-- What differs from a name up to case is not the name. -/
theorem ne_of_not_sameName {name : String} (h : ¬sameName name wanted = true) : (name != wanted) = true := by
  rw [bne_iff_ne]
  rintro rfl
  exact h (sameName_self name)

/-- The names in front of the first one that agrees up to case are passed over by an exact search too. -/
theorem overtaken_append {before after : List α}
    (hbefore : ∀ item ∈ before, ¬sameName (nameOf item) wanted = true)
    (hfirst : sameName (nameOf first) wanted = true) :
    Overtaken ((before ++ first :: after).map nameOf) wanted ↔
      nameOf first ≠ wanted ∧ wanted ∈ after.map nameOf := by
  have hpassed : ∀ name ∈ before.map nameOf, (name != wanted) = true := by
    rw [List.forall_mem_map]
    exact fun item hitem => ne_of_not_sameName (hbefore item hitem)
  have hnone : ∀ name ∈ before.map nameOf, ¬sameName name wanted = true := by
    rw [List.forall_mem_map]
    exact hbefore
  rw [Overtaken, List.map_append, List.map_cons, List.takeWhile_append_of_pos hpassed,
    List.mem_append, List.mem_cons]
  by_cases hexact : nameOf first = wanted
  · rw [List.takeWhile_cons_of_neg (by simpa using hexact), List.append_nil]
    constructor
    · rintro ⟨_, other, hother, hsame⟩
      exact absurd hsame (hnone other hother)
    · exact fun h => absurd hexact h.1
  · rw [List.takeWhile_cons_of_pos (by simpa using hexact)]
    constructor
    · rintro ⟨hmem, _⟩
      refine ⟨hexact, (hmem.resolve_left ?_).resolve_left (Ne.symm hexact)⟩
      exact fun hwanted => hnone wanted hwanted (sameName_self wanted)
    · rintro ⟨_, hmem⟩
      exact ⟨Or.inr (Or.inr hmem), nameOf first, List.mem_append_right _ List.mem_cons_self, hfirst⟩

/-- The exact spelling is preferred to the first one unless that one overtakes it. -/
theorem findNamed_eq_first_iff {items : List α}
    (h : (items.find? fun item => sameName (nameOf item) wanted) = some first) :
    findNamed nameOf wanted items = some first ↔ ¬Overtaken (items.map nameOf) wanted := by
  obtain ⟨hfirst, before, after, rfl, hbefore⟩ := List.find?_eq_some_iff_append.mp h
  simp only [Bool.not_eq_true'] at hbefore
  have hpassed : ∀ item ∈ before, ¬sameName (nameOf item) wanted = true := by simpa using hbefore
  rw [overtaken_append hpassed hfirst, findNamed, not_and_or, not_not]
  cases hexact : (before ++ first :: after).find? fun item => nameOf item == wanted with
  | none =>
    refine iff_of_true h (Or.inr fun hmem => ?_)
    obtain ⟨item, hitem, hname⟩ := List.mem_map.mp hmem
    have hnot := List.find?_eq_none.mp hexact item (List.mem_append_right _ (List.mem_cons_of_mem _ hitem))
    exact hnot (beq_iff_eq.mpr hname)
  | some found =>
    have hfound : nameOf found = wanted := by simpa using List.find?_some hexact
    have hskipped : (before.find? fun item => nameOf item == wanted) = none := by
      rw [List.find?_eq_none]
      intro item hitem heq
      exact hpassed item hitem (eq_of_beq heq ▸ sameName_self _)
    rw [List.find?_append, hskipped, Option.none_or, List.find?_cons] at hexact
    show some found = some first ↔ _
    rw [Option.some.injEq]
    split at hexact
    · rename_i hname
      exact iff_of_true (Option.some.inj hexact).symm (Or.inl (eq_of_beq hname))
    · rename_i hname
      have hne : nameOf first ≠ wanted := by simpa using hname
      refine iff_of_false ?_ ?_
      · rintro rfl
        exact hne hfound
      · rintro (hsame | hnone)
        · exact hne hsame
        · exact hnone (List.mem_map.mpr ⟨found, List.mem_of_find?_eq_some hexact, hfound⟩)

end Names

/-- Each number is that of the column found by the name. -/
def Table.Finds (t : Table) (names : List String) (ids : List ColumnId) : Prop :=
  List.Forall₂ (fun name id => (t.findColumn name).map Column.id = some id) names ids

/-- A key of `own` leads to `target` as declared: all columns are those found by their names, and
without names for the target they are its primary key. -/
structure KeyDeclaration.LeadsTo (key : KeyDeclaration) (own target : Table) (foreign : ForeignKey) :
    Prop where
  leaves : foreign.table = own.id
  reaches : foreign.target = target.id
  columns : own.Finds key.columns (foreign.pairs.map KeyPair.foreign)
  targetColumns : if key.targetColumns = [] then foreign.pairs.map KeyPair.primary = target.primaryKey
    else target.Finds key.targetColumns (foreign.pairs.map KeyPair.primary)

namespace Schema

theorem targetColumns_finds {t target : Table} {names : List String} {ids : List ColumnId}
    (h : targetColumns t target names = .ok ids) :
    if names = [] then ids = target.primaryKey else target.Finds names ids := by
  cases names with
  | nil =>
    cases h
    rfl
  | cons name names =>
    rw [if_neg (List.cons_ne_nil _ _)]
    refine (forall₂_of_mapM_ok h).imp fun wanted id hfound => ?_
    split at hfound
    · rename_i column hcolumn
      cases hfound
      rw [hcolumn]
      rfl
    · cases hfound

/-- Pairing keeps all columns of both sides, as there are equally many. -/
theorem pairColumns_finds {t : Table} {names : List String} {primaries : List ColumnId}
    {pairs : List KeyPair} (hlength : names.length = primaries.length)
    (h : pairColumns t names primaries = .ok pairs) :
    t.Finds names (pairs.map KeyPair.foreign) ∧ pairs.map KeyPair.primary = primaries := by
  have hpairs : List.Forall₂ (fun (p : String × ColumnId) (pair : KeyPair) =>
      (t.findColumn p.1).map Column.id = some pair.foreign ∧ pair.primary = p.2)
      (names.zip primaries) pairs := by
    refine (forall₂_of_mapM_ok h).imp fun p pair hfound => ?_
    simp only at hfound
    split at hfound
    · rename_i column hcolumn
      cases hfound
      rw [hcolumn]
      exact ⟨rfl, rfl⟩
    · cases hfound
  have hnames : (names.zip primaries).map Prod.fst = names :=
    List.map_fst_zip (Nat.le_of_eq hlength)
  have hprimaries : (names.zip primaries).map Prod.snd = primaries :=
    List.map_snd_zip (Nat.le_of_eq hlength.symm)
  constructor
  · rw [Table.Finds, ← hnames, List.forall₂_map_left_iff, List.forall₂_map_right_iff]
    exact hpairs.imp fun _ _ hpair => hpair.1
  · rw [← hprimaries, ← List.forall₂_eq_eq_eq, List.forall₂_map_left_iff, List.forall₂_map_right_iff]
    exact hpairs.flip.imp fun _ _ hpair => hpair.2

/-- A resolved key leads to the first table of the name up to case. -/
theorem resolveKey_leadsTo {tables : List Table} {t : Table} {key : KeyDeclaration}
    {foreign : ForeignKey} (h : resolveKey tables t key = .ok foreign) :
    ∃ first, (tables.find? fun other => sameName other.name key.target) = some first ∧
      key.LeadsTo t first foreign := by
  unfold resolveKey at h
  split at h
  · cases h
  · rename_i first hfirst
    obtain ⟨primaries, hprimaries, h⟩ := except_bind_ok.mp h
    split at h
    · cases h
    · rename_i hpaired
      rw [not_or, not_not] at hpaired
      obtain ⟨pairs, hpairs, h⟩ := except_bind_ok.mp h
      cases h
      obtain ⟨hcolumns, hsame⟩ := pairColumns_finds hpaired.1.symm hpairs
      refine ⟨first, hfirst, rfl, rfl, hcolumns, ?_⟩
      show if key.targetColumns = [] then pairs.map KeyPair.primary = first.primaryKey
        else first.Finds key.targetColumns (pairs.map KeyPair.primary)
      rw [hsame]
      exact targetColumns_finds hprimaries

/-- In a built schema every key leads to the first table of its name up to case, all of its columns
being those that are found by their names. -/
theorem build_leadsTo {ds : List TableDeclaration} {s : Schema} (h : build ds = .ok s) :
    List.Forall₂ (fun d t => List.Forall₂ (fun key foreign =>
      ∃ first, (s.tables.find? fun other => sameName other.name key.target) = some first ∧
        key.LeadsTo t first foreign) d.foreignKeys t.foreignKeys) ds s.tables := by
  obtain ⟨_, tables, resolved, htables, hresolved, rfl⟩ := build_inv h
  have hkept := resolveKeys_forall₂ hresolved
  have hlength := ((layTables_checks 0 ds).2 tables htables).length_eq
  have hdeclared : (tables.zip ds).map Prod.snd = ds := List.map_snd_zip (Nat.le_of_eq hlength)
  have hlaid : (tables.zip ds).map Prod.fst = tables := List.map_fst_zip (Nat.le_of_eq hlength.symm)
  have hsame : List.Forall₂ (fun before after => after = { before with
      foreignKeys := after.foreignKeys }) tables resolved := by
    rw [← hlaid, List.forall₂_map_left_iff]
    exact hkept.imp fun _ _ hafter => hafter.1
  show List.Forall₂ _ ds resolved
  rw [← hdeclared, List.forall₂_map_left_iff]
  refine hkept.imp ?_
  rintro ⟨own, d⟩ t ⟨ht, hkeys⟩
  refine (forall₂_of_mapM_ok hkeys).imp fun key foreign hresolve => ?_
  obtain ⟨first, hfirst, hleads⟩ := resolveKey_leadsTo hresolve
  have hnames : ∀ before after : Table, after = { before with foreignKeys := after.foreignKeys } →
      sameName before.name key.target = sameName after.name key.target := by
    intro before after hafter
    rw [hafter]
  rcases find?_of_forall₂ hsame hnames with ⟨hnone, _⟩ | ⟨before, after, hbefore, hafter, heq⟩
  · cases hnone.symm.trans hfirst
  · cases hfirst.symm.trans hbefore
    refine ⟨after, hafter, ?_⟩
    rw [ht, heq]
    exact ⟨hleads.leaves, hleads.reaches, hleads.columns, hleads.targetColumns⟩

/-- A key of a built schema leads to the first table of its name up to case, each of its columns being
the one found by its name. That table is the one found by the name in the schema, unless the name is
declared itself, but behind another spelling of it. -/
theorem build_references {ds : List TableDeclaration} {s : Schema} (h : build ds = .ok s) :
    List.Forall₂ (fun d t => List.Forall₂ (fun key foreign =>
      (∃ first, (s.tables.find? fun other => sameName other.name key.target) = some first ∧
        key.LeadsTo t first foreign) ∧
      ((∃ found, s.findTable key.target = some found ∧ key.LeadsTo t found foreign) ↔
        ¬Overtaken (ds.map TableDeclaration.name) key.target)) d.foreignKeys t.foreignKeys)
      ds s.tables := by
  have hsound := build_sound h
  have hnames : s.tables.map Table.name = ds.map TableDeclaration.name := by
    rw [← List.forall₂_eq_eq_eq, List.forall₂_map_left_iff, List.forall₂_map_right_iff]
    exact (build_numbered h).declared.flip.imp fun t d hdeclared => hdeclared.1.name
  refine (build_leadsTo h).imp fun d t hkeys => hkeys.imp ?_
  rintro key foreign ⟨first, hfirst, hleads⟩
  refine ⟨⟨first, hfirst, hleads⟩, ?_⟩
  rw [← hnames, ← findNamed_eq_first_iff hfirst]
  constructor
  · rintro ⟨found, hfound, hto⟩
    have hid : found.id = first.id := hto.reaches.symm.trans hleads.reaches
    rw [← hsound.eq_of_id (mem_of_findTable hfound) (List.mem_of_find?_eq_some hfirst) hid]
    exact hfound
  · exact fun hfound => ⟨first, hfound, hleads⟩

/-- Employees of departments, named in another case than they are declared, each with a head. -/
def staff : List TableDeclaration :=
  [⟨"Employee", .table, [⟨"Id", .integer 4, false, true, false⟩,
      ⟨"DepartmentId", .integer 4, true, false, false⟩], [⟨["departmentid"], "DEPARTMENT", []⟩]⟩,
    ⟨"Department", .table, [⟨"Id", .integer 4, false, true, false⟩,
      ⟨"HeadId", .integer 4, true, false, false⟩], [⟨["HeadId"], "Employee", ["Id"]⟩]⟩]

theorem build_references_staff : ∃ s, build staff = .ok s ∧
    List.Forall₂ (fun d t => List.Forall₂ (fun key foreign =>
      (∃ first, (s.tables.find? fun other => sameName other.name key.target) = some first ∧
        key.LeadsTo t first foreign) ∧
      ((∃ found, s.findTable key.target = some found ∧ key.LeadsTo t found foreign) ↔
        ¬Overtaken (staff.map TableDeclaration.name) key.target)) d.foreignKeys t.foreignKeys)
      staff s.tables :=
  ⟨_, rfl, build_references rfl⟩

/-- Notes in two spellings, and remarks on those of the second one. -/
def spelledTwice : List TableDeclaration :=
  [⟨"note", .table, [⟨"Id", .integer 4, false, true, false⟩], []⟩,
    ⟨"Note", .table, [⟨"Id", .integer 4, false, true, false⟩], []⟩,
    ⟨"Remark", .table, [⟨"Id", .integer 4, false, true, false⟩,
      ⟨"NoteId", .integer 4, false, false, false⟩], [⟨["NoteId"], "Note", ["Id"]⟩]⟩]

/-- The key of the remarks leads to the notes of the first spelling. -/
theorem references_overtaken : ∃ s, build spelledTwice = .ok s ∧
    ¬List.Forall₂ (fun d t => List.Forall₂ (fun key foreign =>
      ∃ found, s.findTable key.target = some found ∧ key.LeadsTo t found foreign)
        d.foreignKeys t.foreignKeys) spelledTwice s.tables := by
  refine ⟨_, rfl, ?_⟩
  intro hall
  cases hall with
  | cons _ hall =>
    cases hall with
    | cons _ hall =>
      cases hall with
      | cons hkeys _ =>
        cases hkeys with
        | cons hkey _ =>
          obtain ⟨found, hfound, hleads⟩ := hkey
          cases hfound
          cases hleads.reaches

end Schema

end ShapeSql
