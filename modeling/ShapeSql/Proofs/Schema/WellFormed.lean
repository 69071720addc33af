import ShapeSql.Proofs.Schema.Keys

/-!
Which declarations make a schema. Building checks tables, columns and keys in two passes and stops at
the first fault; it succeeds exactly on the declarations that are well-formed, which is said here of
the declarations alone, and refuses all others as an invalid schema. What is built stands where it was
declared: tables and columns are found under their numbers, primary keys list the columns flagged as
key, and the pairs of a foreign key are found on both sides.
-/

namespace ShapeSql

namespace TableDeclaration

/-- A column of this name is declared, up to case. -/
def HasColumn (d : TableDeclaration) (name : String) : Prop :=
  ∃ column ∈ d.columns, sameName column.name name = true

/-- The columns declared as key. -/
def keyColumns (d : TableDeclaration) : List ColumnDeclaration :=
  d.columns.filter ColumnDeclaration.primaryKey

end TableDeclaration

/-- The number of columns that a key refers to: those named, or the key of the target where none is. -/
def KeyDeclaration.width (key : KeyDeclaration) (target : TableDeclaration) : Nat :=
  if key.targetColumns = [] then target.keyColumns.length else key.targetColumns.length

/-- The columns that a key of `own` names are there, and it pairs one with one, and one at least. -/
structure KeyDeclaration.Joins (key : KeyDeclaration) (own target : TableDeclaration) : Prop where
  columns : ∀ name ∈ key.columns, own.HasColumn name
  targetColumns : ∀ name ∈ key.targetColumns, target.HasColumn name
  paired : key.columns.length = key.width target
  nonempty : key.columns ≠ []

namespace Schema

/-- No table is declared twice, no two columns of a table agree up to case, and every key joins its
table to one that is declared: the first one of the name, up to case. -/
structure WellFormed (ds : List TableDeclaration) : Prop where
  tables : (ds.map TableDeclaration.name).Nodup
  columns : ∀ d ∈ ds, d.columns.Pairwise fun a b => sameName a.name b.name = false
  keys : ∀ d ∈ ds, ∀ key ∈ d.foreignKeys,
    ∃ target ∈ ds.find? (fun other => sameName other.name key.target), key.Joins d target

end Schema

section Decidable

instance (d : TableDeclaration) (name : String) : Decidable (d.HasColumn name) :=
  inferInstanceAs (Decidable (∃ column ∈ d.columns, sameName column.name name = true))

instance (key : KeyDeclaration) (own target : TableDeclaration) : Decidable (key.Joins own target) :=
  decidable_of_iff ((∀ name ∈ key.columns, own.HasColumn name) ∧
    (∀ name ∈ key.targetColumns, target.HasColumn name) ∧
      key.columns.length = key.width target ∧ key.columns ≠ [])
    ⟨fun h => ⟨h.1, h.2.1, h.2.2.1, h.2.2.2⟩,
      fun h => ⟨h.columns, h.targetColumns, h.paired, h.nonempty⟩⟩

theorem Schema.wellFormed_iff (ds : List TableDeclaration) : Schema.WellFormed ds ↔
    (ds.map TableDeclaration.name).Nodup ∧
      (∀ d ∈ ds, d.columns.Pairwise fun a b => sameName a.name b.name = false) ∧
        ∀ d ∈ ds, ∀ key ∈ d.foreignKeys,
          ∃ target ∈ ds.find? (fun other => sameName other.name key.target), key.Joins d target := by
  constructor
  · rintro ⟨htables, hcolumns, hkeys⟩
    exact ⟨htables, hcolumns, hkeys⟩
  · rintro ⟨htables, hcolumns, hkeys⟩
    exact ⟨htables, hcolumns, hkeys⟩

instance (ds : List TableDeclaration) : Decidable (Schema.WellFormed ds) :=
  decidable_of_iff _ (Schema.wellFormed_iff ds).symm

end Decidable

section Checks

variable {α β : Type}

/-- A check of `P`: it goes through exactly if `P` holds, and is an invalid schema if not. -/
def Checks (P : Prop) (x : Except Error α) : Prop :=
  (P ∧ ∃ a, x = .ok a) ∨ (¬P ∧ ∃ fault, x = .error (.badSchema fault))

variable {P Q : Prop} {x : Except Error α}

theorem Checks.ok_iff (h : Checks P x) : (∃ a, x = .ok a) ↔ P := by
  rcases h with ⟨hP, hok⟩ | ⟨hP, fault, hfault⟩
  · exact iff_of_true hok hP
  · refine iff_of_false ?_ hP
    rintro ⟨a, ha⟩
    cases hfault.symm.trans ha

theorem Checks.refused (h : Checks P x) (hP : ¬P) : ∃ fault, x = .error (.badSchema fault) := by
  rcases h with ⟨hholds, _⟩ | ⟨_, hfault⟩
  · exact absurd hholds hP
  · exact hfault

theorem Checks.iff (h : Checks P x) (hiff : P ↔ Q) : Checks Q x := by
  rw [Checks, ← hiff]
  exact h

theorem checks_ok (a : α) : Checks True (.ok a : Except Error α) := Or.inl ⟨trivial, a, rfl⟩

/-- The second check may rely on what the first one yields. -/
theorem Checks.bind {f : α → Except Error β} (h : Checks P x) (hf : ∀ a, x = .ok a → Checks Q (f a)) :
    Checks (P ∧ Q) (x >>= f) := by
  rcases h with ⟨hP, a, rfl⟩ | ⟨hP, fault, rfl⟩
  · exact (hf a rfl).iff (and_iff_right hP).symm
  · exact Or.inr ⟨fun hboth => hP hboth.1, fault, rfl⟩

/-- A last step that goes through by itself adds nothing to what is checked. -/
theorem Checks.andThen {f : α → Except Error β} (h : Checks P x) (hf : ∀ a, ∃ b, f a = .ok b) :
    Checks P (x >>= f) := by
  have htrivial : ∀ a, x = .ok a → Checks True (f a) := fun a _ => Or.inl ⟨trivial, hf a⟩
  exact (h.bind htrivial).iff (and_iff_left trivial)

theorem checks_mapM {R : α → Prop} {f : α → Except Error β} {items : List α}
    (h : ∀ a ∈ items, Checks (R a) (f a)) : Checks (∀ a ∈ items, R a) (items.mapM f) := by
  induction items with
  | nil => exact (checks_ok []).iff (iff_of_true trivial (List.forall_mem_nil _))
  | cons a items ih =>
    rw [List.forall_mem_cons] at h
    rw [List.mapM_cons]
    have hrest : ∀ b, f a = .ok b →
        Checks (∀ a ∈ items, R a) (items.mapM f >>= fun bs => pure (b :: bs)) :=
      fun b _ => (ih h.2).andThen fun bs => ⟨b :: bs, rfl⟩
    exact (h.1.bind hrest).iff List.forall_mem_cons.symm

end Checks

/-- Some spelling of the name is found exactly if there is one. -/
theorem findNamed_isSome_iff {α : Type} {nameOf : α → String} {wanted : String} {items : List α} :
    (findNamed nameOf wanted items).isSome = true ↔
      ∃ item ∈ items, sameName (nameOf item) wanted = true := by
  unfold findNamed
  split
  · rename_i item hfound
    have hexact : nameOf item = wanted := by simpa using List.find?_some hfound
    refine iff_of_true rfl ⟨item, List.mem_of_find?_eq_some hfound, ?_⟩
    rw [hexact]
    exact sameName_self wanted
  · exact List.find?_isSome

/-- What is found by name in either of two lists that correspond is found in both. -/
theorem find?_of_forall₂ {α β : Type} {R : α → β → Prop} {as : List α} {bs : List β} {p : α → Bool}
    {q : β → Bool} (h : List.Forall₂ R as bs) (hsame : ∀ a b, R a b → p a = q b) :
    (as.find? p = none ∧ bs.find? q = none) ∨
      ∃ a b, as.find? p = some a ∧ bs.find? q = some b ∧ R a b := by
  induction h with
  | nil => exact Or.inl ⟨rfl, rfl⟩
  | @cons a b as bs hab _ ih =>
    rw [List.find?_cons, List.find?_cons, ← hsame a b hab]
    cases p a with
    | true => exact Or.inr ⟨a, b, rfl, rfl, hab⟩
    | false => exact ih

/-- The declaration that a column was laid out from. -/
def Column.declaration (c : Column) : ColumnDeclaration :=
  ⟨c.name, c.type, c.nullable, c.primaryKey, c.autoIncrement⟩

/-- The table has the name, the kind and the columns of its declaration. -/
structure Table.LaidAs (d : TableDeclaration) (t : Table) : Prop where
  name : t.name = d.name
  kind : t.kind = d.kind
  columns : t.columns.map Column.declaration = d.columns

theorem Table.LaidAs.hasColumn_iff {d : TableDeclaration} {t : Table} (h : t.LaidAs d) {name : String} :
    (t.findColumn name).isSome = true ↔ d.HasColumn name := by
  rw [findColumn, findNamed_isSome_iff, TableDeclaration.HasColumn, ← h.columns]
  constructor
  · rintro ⟨column, hcolumn, hname⟩
    exact ⟨_, List.mem_map_of_mem hcolumn, hname⟩
  · rintro ⟨declared, hdeclared, hname⟩
    obtain ⟨column, hcolumn, rfl⟩ := List.mem_map.mp hdeclared
    exact ⟨column, hcolumn, hname⟩

theorem Table.LaidAs.length_primaryKey {d : TableDeclaration} {t : Table} (h : t.LaidAs d)
    (hlaid : t.Laid) : t.primaryKey.length = d.keyColumns.length := by
  rw [hlaid.key, List.length_map, TableDeclaration.keyColumns, ← h.columns, List.filter_map,
    List.length_map]
  rfl

namespace Schema

theorem repeatedName_eq_none_iff {seen names : List String} :
    repeatedName seen names = none ↔ names.Nodup ∧ ∀ name ∈ names, name ∉ seen := by
  refine ⟨repeatedName_eq_none, ?_⟩
  rintro ⟨hnodup, hunseen⟩
  induction names generalizing seen with
  | nil => rfl
  | cons name rest ih =>
    rw [List.nodup_cons] at hnodup
    rw [List.forall_mem_cons] at hunseen
    have hnew : ¬seen.contains name = true := by
      rw [List.contains_iff_mem]
      exact hunseen.1
    rw [repeatedName, if_neg hnew]
    refine ih hnodup.2 fun other hother hseen => ?_
    rcases List.mem_cons.mp hseen with rfl | hbefore
    · exact hnodup.1 hother
    · exact hunseen.2 other hother hbefore

/-- The columns are laid out as declared, unless one agrees with an earlier one. -/
theorem layColumns_checks {table : TableId} {tableName : String} {laid : List Column}
    {ds : List ColumnDeclaration} :
    Checks ((∀ d ∈ ds, ∀ column ∈ laid, sameName column.name d.name = false) ∧
      ds.Pairwise fun a b => sameName a.name b.name = false)
      (layColumns table tableName laid ds) ∧
    ∀ columns, layColumns table tableName laid ds = .ok columns →
      columns.map Column.declaration = laid.map Column.declaration ++ ds := by
  induction ds generalizing laid with
  | nil =>
    refine ⟨(checks_ok laid).iff (iff_of_true trivial ⟨List.forall_mem_nil _, .nil⟩), ?_⟩
    intro columns h
    cases h
    rw [List.append_nil]
  | cons d rest ih =>
    rw [layColumns]
    split
    · rename_i hsame
      obtain ⟨column, hcolumn, hname⟩ := List.any_eq_true.mp hsame
      refine ⟨Or.inr ⟨?_, _, rfl⟩, nofun⟩
      rintro ⟨hapart, _⟩
      rw [hapart d List.mem_cons_self column hcolumn] at hname
      cases hname
    · rename_i hnone
      have hnew : ∀ column ∈ laid, sameName column.name d.name = false := by
        simpa using hnone
      obtain ⟨hchecks, hdeclared⟩ :=
        @ih (laid ++ [⟨⟨table, laid.length⟩, d.name, d.type, d.nullable, d.primaryKey,
          d.autoIncrement⟩])
      refine ⟨hchecks.iff ?_, ?_⟩
      · simp only [List.forall_mem_append, List.forall_mem_singleton, List.forall_mem_cons,
          List.pairwise_cons, forall_and]
        tauto
      · intro columns h
        rw [hdeclared columns h, List.map_append, List.append_assoc]
        rfl

theorem layTable_checks (index : Nat) (d : TableDeclaration) :
    Checks (d.columns.Pairwise fun a b => sameName a.name b.name = false) (layTable index d) ∧
      ∀ t, layTable index d = .ok t → t.LaidAs d := by
  obtain ⟨hchecks, hdeclared⟩ := @layColumns_checks ⟨index⟩ d.name [] d.columns
  constructor
  · refine (hchecks.andThen fun columns => ⟨_, rfl⟩).iff (and_iff_right ?_)
    exact fun _ _ => List.forall_mem_nil _
  · intro t h
    obtain ⟨columns, hcolumns, hpure⟩ := except_bind_ok.mp h
    cases hpure
    exact ⟨rfl, rfl, hdeclared columns hcolumns⟩

theorem layTables_checks (index : Nat) (ds : List TableDeclaration) :
    Checks (∀ d ∈ ds, d.columns.Pairwise fun a b => sameName a.name b.name = false)
      (layTables index ds) ∧
      ∀ tables, layTables index ds = .ok tables → List.Forall₂ (fun d t => t.LaidAs d) ds tables := by
  induction ds generalizing index with
  | nil =>
    refine ⟨(checks_ok []).iff (iff_of_true trivial (List.forall_mem_nil _)), ?_⟩
    intro tables h
    cases h
    exact .nil
  | cons d rest ih =>
    obtain ⟨hfirst, hlaid⟩ := layTable_checks index d
    obtain ⟨hrest, hothers⟩ := ih (index + 1)
    constructor
    · rw [layTables]
      have hnext : ∀ t, layTable index d = .ok t →
          Checks (∀ d ∈ rest, d.columns.Pairwise fun a b => sameName a.name b.name = false)
            (layTables (index + 1) rest >>= fun tables => pure (t :: tables)) :=
        fun t _ => hrest.andThen fun tables => ⟨t :: tables, rfl⟩
      exact (hfirst.bind hnext).iff (by rw [List.forall_mem_cons])
    · intro tables h
      obtain ⟨first, hone, h⟩ := except_bind_ok.mp h
      obtain ⟨others, hmore, h⟩ := except_bind_ok.mp h
      cases h
      exact .cons (hlaid first hone) (hothers others hmore)

section Keys

variable {d target : TableDeclaration} {t found : Table}

/-- A check that a name is found, whatever is made of what is found. -/
theorem findColumn_checks {α : Type} (h : t.LaidAs d) {name : String} (make : Column → α)
    (fault : SchemaFault) :
    Checks (d.HasColumn name) (match t.findColumn name with
      | some column => .ok (make column)
      | none => .error (.badSchema fault)) := by
  rw [Checks, ← h.hasColumn_iff]
  cases t.findColumn name with
  | some column => exact Or.inl ⟨rfl, _, rfl⟩
  | none => exact Or.inr ⟨Bool.false_ne_true, _, rfl⟩

theorem targetColumns_checks (h : found.LaidAs target) (hlaid : found.Laid) (key : KeyDeclaration) :
    Checks (∀ name ∈ key.targetColumns, target.HasColumn name)
      (targetColumns t found key.targetColumns) ∧
    ∀ ids, targetColumns t found key.targetColumns = .ok ids → ids.length = key.width target := by
  unfold KeyDeclaration.width
  cases key.targetColumns with
  | nil =>
    refine ⟨(checks_ok _).iff (iff_of_true trivial (List.forall_mem_nil _)), ?_⟩
    intro ids hids
    cases hids
    rw [if_pos rfl]
    exact h.length_primaryKey hlaid
  | cons name names =>
    refine ⟨checks_mapM fun other _ => findColumn_checks h Column.id _, ?_⟩
    intro ids hids
    rw [if_neg (List.cons_ne_nil _ _)]
    exact length_of_mapM_ok hids

/-- Every own column takes part in a pair, since there are as many on the other side. -/
theorem pairColumns_checks (h : t.LaidAs d) {names : List String} {primaries : List ColumnId}
    (hlength : names.length = primaries.length) :
    Checks (∀ name ∈ names, d.HasColumn name) (pairColumns t names primaries) := by
  have hpairs : Checks (∀ pair ∈ names.zip primaries, d.HasColumn pair.1)
      (pairColumns t names primaries) :=
    checks_mapM fun pair _ =>
      findColumn_checks h (fun column => (⟨column.id, pair.2⟩ : KeyPair)) (.unknownKeyColumn pair.1 t.name)
  refine hpairs.iff ?_
  have hnames : (names.zip primaries).map Prod.fst = names :=
    List.map_fst_zip (Nat.le_of_eq hlength)
  constructor
  · intro hall name hname
    rw [← hnames] at hname
    obtain ⟨pair, hpair, rfl⟩ := List.mem_map.mp hname
    exact hall pair hpair
  · intro hall pair hpair
    exact hall pair.1 (hnames ▸ List.mem_map_of_mem hpair)

/-- What remains to be checked of a key once the columns of its target are there: it pairs as many of its
own, one at least, and these are columns. -/
theorem keyPairs_checks (h : t.LaidAs d) (key : KeyDeclaration) (target : TableDeclaration)
    {found : Table} {ids : List ColumnId} (hwidth : ids.length = key.width target) :
    Checks ((key.columns.length = key.width target ∧ key.columns ≠ []) ∧
      ∀ name ∈ key.columns, d.HasColumn name) (do
        if ids.length ≠ key.columns.length ∨ ids = [] then
          throw (.badSchema (.unpaired t.name key.columns.length ids.length found.name))
        let pairs ← pairColumns t key.columns ids
        return (⟨t.id, found.id, pairs⟩ : ForeignKey)) := by
  split
  · rename_i hunpaired
    refine Or.inr ⟨?_, _, rfl⟩
    rintro ⟨⟨hpaired, hsome⟩, _⟩
    rcases hunpaired with hne | rfl
    · exact hne (hwidth.trans hpaired.symm)
    · exact hsome (List.eq_nil_of_length_eq_zero (hpaired.trans hwidth.symm))
  · rename_i hpaired
    rw [not_or, not_not] at hpaired
    obtain ⟨hcount, hsome⟩ := hpaired
    have hown : Checks (∀ name ∈ key.columns, d.HasColumn name)
        (pairColumns t key.columns ids >>= fun pairs =>
          pure (⟨t.id, found.id, pairs⟩ : ForeignKey)) :=
      (pairColumns_checks h hcount.symm).andThen fun pairs => ⟨_, rfl⟩
    have hnonempty : key.columns ≠ [] := by
      intro hnil
      rw [hnil] at hcount
      exact hsome (List.eq_nil_of_length_eq_zero hcount)
    exact hown.iff (and_iff_right ⟨hcount.symm.trans hwidth, hnonempty⟩).symm

theorem resolveKey_checks {ds : List TableDeclaration} {tables : List Table}
    (hds : List.Forall₂ (fun d t => t.LaidAs d) ds tables) (hlaid : ∀ t ∈ tables, t.Laid)
    (h : t.LaidAs d) (key : KeyDeclaration) :
    Checks (∃ target ∈ ds.find? (fun other => sameName other.name key.target), key.Joins d target)
      (resolveKey tables t key) := by
  have hsame : ∀ (other : TableDeclaration) (laid : Table), laid.LaidAs other →
      sameName other.name key.target = sameName laid.name key.target := by
    intro other laid hother
    rw [hother.name]
  unfold resolveKey
  rcases find?_of_forall₂ hds hsame with ⟨hnone, hnoTable⟩ | ⟨target, found, hfind, hfound, htarget⟩
  · rw [hnone, hnoTable]
    refine Or.inr ⟨?_, _, rfl⟩
    rintro ⟨_, hsome, _⟩
    cases hsome
  · rw [hfind, hfound]
    obtain ⟨hchecks, hlength⟩ :=
      targetColumns_checks (t := t) htarget (hlaid found (List.mem_of_find?_eq_some hfound)) key
    refine (hchecks.bind fun ids hids => keyPairs_checks h key target (hlength ids hids)).iff ?_
    constructor
    · rintro ⟨hthere, ⟨hpaired, hsome⟩, hown⟩
      exact ⟨target, rfl, hown, hthere, hpaired, hsome⟩
    · rintro ⟨_, hsame, hjoins⟩
      cases hsame
      exact ⟨hjoins.targetColumns, ⟨hjoins.paired, hjoins.nonempty⟩, hjoins.columns⟩

end Keys

theorem resolveKeys_checks {tables : List Table} {declared : List (Table × TableDeclaration)}
    {R : Table × TableDeclaration → KeyDeclaration → Prop}
    (h : ∀ p ∈ declared, ∀ key, Checks (R p key) (resolveKey tables p.1 key)) :
    Checks (∀ p ∈ declared, ∀ key ∈ p.2.foreignKeys, R p key) (resolveKeys tables declared) := by
  induction declared with
  | nil => exact (checks_ok []).iff (iff_of_true trivial (List.forall_mem_nil _))
  | cons first rest ih =>
    obtain ⟨table, d⟩ := first
    rw [List.forall_mem_cons] at h
    rw [resolveKeys]
    have hfirst : Checks (∀ key ∈ d.foreignKeys, R (table, d) key)
        (d.foreignKeys.mapM (resolveKey tables table)) := checks_mapM fun key _ => h.1 key
    have hrest : ∀ keys, d.foreignKeys.mapM (resolveKey tables table) = .ok keys →
        Checks (∀ p ∈ rest, ∀ key ∈ p.2.foreignKeys, R p key)
          (resolveKeys tables rest >>= fun resolved =>
            pure ({ table with foreignKeys := keys } :: resolved)) :=
      fun keys _ => (ih h.2).andThen fun resolved => ⟨_, rfl⟩
    exact (hfirst.bind hrest).iff (by rw [List.forall_mem_cons])

/-- Building checks that the declarations are well-formed. -/
theorem build_checks (ds : List TableDeclaration) : Checks (WellFormed ds) (build ds) := by
  unfold build
  cases hrepeated : repeatedName [] (ds.map TableDeclaration.name) with
  | some name =>
    refine Or.inr ⟨fun hwell => ?_, _, rfl⟩
    have hnone := repeatedName_eq_none_iff.mpr ⟨hwell.tables, fun _ _ => List.not_mem_nil⟩
    cases hnone.symm.trans hrepeated
  | none =>
    have hnames := (repeatedName_eq_none_iff.mp hrepeated).1
    obtain ⟨hchecks, hdeclared⟩ := layTables_checks 0 ds
    have hrest : ∀ tables, layTables 0 ds = .ok tables →
        Checks (∀ d ∈ ds, ∀ key ∈ d.foreignKeys,
            ∃ target ∈ ds.find? (fun other => sameName other.name key.target), key.Joins d target)
          (resolveKeys tables (tables.zip ds) >>= fun resolved => pure (⟨resolved⟩ : Schema)) := by
      intro tables htables
      have hds := hdeclared tables htables
      have hlaid : ∀ t ∈ tables, t.Laid := by
        intro t ht
        obtain ⟨i, hi⟩ := List.mem_iff_getElem?.mp ht
        exact (layTables_laid htables i t hi).2
      have hkeys : Checks (∀ p ∈ tables.zip ds, ∀ key ∈ p.2.foreignKeys,
          ∃ target ∈ ds.find? (fun other => sameName other.name key.target), key.Joins p.2 target)
          (resolveKeys tables (tables.zip ds)) :=
        resolveKeys_checks fun p hp key =>
          resolveKey_checks hds hlaid (List.forall₂_zip hds.flip hp) key
      refine (hkeys.andThen fun resolved => ⟨_, rfl⟩).iff ?_
      have hzip : (tables.zip ds).map Prod.snd = ds :=
        List.map_snd_zip (Nat.le_of_eq hds.length_eq)
      constructor
      · intro hall d hd
        rw [← hzip] at hd
        obtain ⟨p, hp, rfl⟩ := List.mem_map.mp hd
        exact hall p hp
      · intro hall p hp
        exact hall p.2 (List.of_mem_zip hp).2
    refine (hchecks.bind hrest).iff ?_
    exact ⟨fun h => ⟨hnames, h.1, h.2⟩, fun h => ⟨h.columns, h.keys⟩⟩

theorem resolveKey_table {tables : List Table} {t : Table} {d : KeyDeclaration} {key : ForeignKey}
    (h : resolveKey tables t d = .ok key) : key.table = t.id := by
  unfold resolveKey at h
  split at h
  · cases h
  · obtain ⟨primaries, _, h⟩ := except_bind_ok.mp h
    split at h
    · cases h
    · obtain ⟨pairs, _, h⟩ := except_bind_ok.mp h
      cases h
      rfl

/-- The tables are those declared, in order, with all that they declare; every table and column has
the number of its place, and whatever a key lists is found under its number. -/
structure Numbered (s : Schema) (ds : List TableDeclaration) : Prop where
  declared : List.Forall₂ (fun d t => t.LaidAs d ∧
    t.foreignKeys.length = d.foreignKeys.length) ds s.tables
  tables : ∀ (i : Nat) (t : Table), s.tables[i]? = some t → t.id = ⟨i⟩ ∧ s.table? t.id = some t
  columns : ∀ t ∈ s.tables, ∀ (i : Nat) (column : Column), t.columns[i]? = some column →
    column.id = ⟨t.id, i⟩ ∧ s.column? column.id = some column
  primaryKey : ∀ t ∈ s.tables, t.primaryKey = (t.columns.filter Column.primaryKey).map Column.id
  foreignKeys : ∀ t ∈ s.tables, ∀ key ∈ t.foreignKeys, key.table = t.id ∧
    ∃ target, s.table? key.target = some target ∧ ∀ pair ∈ key.pairs,
      (∃ column ∈ t.columns, s.column? pair.foreign = some column) ∧
        ∃ column ∈ target.columns, s.column? pair.primary = some column

/-- A column is found under its number. -/
theorem Sound.column?_id {s : Schema} (h : s.Sound) {t : Table} (ht : t ∈ s.tables) {i : Nat}
    {column : Column} (hcolumn : t.columns[i]? = some column) : s.column? column.id = some column := by
  rw [column?, (h.laid t ht).numbered i column hcolumn, h.table?_id ht]
  exact hcolumn

theorem Sound.column?_of_owns {s : Schema} (h : s.Sound) {t : Table} (ht : t ∈ s.tables)
    {id : ColumnId} (hid : t.Owns id) : ∃ column ∈ t.columns, s.column? id = some column := by
  obtain ⟨column, hcolumn, rfl⟩ := hid
  obtain ⟨i, hi⟩ := List.mem_iff_getElem?.mp hcolumn
  exact ⟨column, hcolumn, h.column?_id ht hi⟩

theorem build_numbered {ds : List TableDeclaration} {s : Schema} (h : build ds = .ok s) :
    s.Numbered ds := by
  have hsound := build_sound h
  have hkeyed := build_keyed h
  obtain ⟨_, tables, resolved, htables, hresolved, rfl⟩ := build_inv h
  have hds := (layTables_checks 0 ds).2 tables htables
  have hkept := resolveKeys_forall₂ hresolved
  have hzip : (tables.zip ds).map Prod.snd = ds := List.map_snd_zip (Nat.le_of_eq hds.length_eq)
  have hbeside : ∀ p ∈ tables.zip ds, p.1.LaidAs p.2 := fun p hp => List.forall₂_zip hds.flip hp
  refine ⟨?_, ?_, ?_, fun t ht => (hsound.laid t ht).key, ?_⟩
  · show List.Forall₂ _ ds resolved
    rw [← hzip, List.forall₂_map_left_iff]
    refine ((List.forall₂_and_left _ _).mpr ⟨hbeside, hkept⟩).imp ?_
    rintro p t ⟨hlaid, hsame, hkeys⟩
    refine ⟨?_, length_of_mapM_ok hkeys⟩
    rw [hsame]
    exact ⟨hlaid.name, hlaid.kind, hlaid.columns⟩
  · intro i t hi
    exact ⟨hsound.placed i t hi, hsound.table?_id (List.mem_of_getElem? hi)⟩
  · intro t ht i column hi
    exact ⟨(hsound.laid t ht).numbered i column hi, hsound.column?_id ht hi⟩
  · intro t ht key hkey
    obtain ⟨target, htarget, hid, hpairs⟩ := hkeyed.pairs t ht key hkey
    obtain ⟨p, _, hsame, hmade⟩ := mem_left_of_forall₂ hkept ht
    obtain ⟨d, _, hresolve⟩ := mem_of_mapM_ok hmade hkey
    refine ⟨?_, target, hid ▸ hsound.table?_id htarget, ?_⟩
    · rw [resolveKey_table hresolve, hsame]
    · intro pair hpair
      obtain ⟨hforeign, hprimary⟩ := hpairs pair hpair
      exact ⟨hsound.column?_of_owns ht hforeign, hsound.column?_of_owns htarget hprimary⟩

/-- Building succeeds exactly on well-formed declarations and refuses all others as an invalid schema.
In what is built everything stands under its number. -/
theorem build_accepts (ds : List TableDeclaration) :
    ((∃ s, build ds = .ok s) ↔ WellFormed ds) ∧
      (¬WellFormed ds → ∃ e, build ds = .error e ∧ e.kind = .invalidSchema) ∧
      ∀ s, build ds = .ok s → s.Numbered ds := by
  have hchecks := build_checks ds
  refine ⟨hchecks.ok_iff, fun hnot => ?_, fun s => build_numbered⟩
  obtain ⟨fault, hfault⟩ := hchecks.refused hnot
  exact ⟨_, hfault, rfl⟩

/-- Employees of departments that are declared after them, each with a head who is an employee. -/
example : WellFormed [
    ⟨"Employee", .table, [⟨"Id", .integer 4, false, true, false⟩,
      ⟨"DepartmentId", .integer 4, true, false, false⟩], [⟨["departmentid"], "DEPARTMENT", []⟩]⟩,
    ⟨"Department", .table, [⟨"Id", .integer 4, false, true, false⟩,
      ⟨"HeadId", .integer 4, true, false, false⟩], [⟨["HeadId"], "Employee", ["Id"]⟩]⟩] := by
  decide

end Schema

end ShapeSql
