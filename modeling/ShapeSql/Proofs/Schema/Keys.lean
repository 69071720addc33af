import Mathlib.Data.List.Nodup
import ShapeSql.Proofs.Schema.Declaration

namespace ShapeSql

/-- The column of this number is one of the table. -/
def Table.Owns (t : Table) (id : ColumnId) : Prop := ∃ column ∈ t.columns, column.id = id

theorem Table.owns_of_findColumn {t : Table} {name : String} {column : Column}
    (h : t.findColumn name = some column) : t.Owns column.id :=
  ⟨column, mem_of_findNamed h, rfl⟩

theorem Table.Laid.owns_of_mem_primaryKey {t : Table} (h : t.Laid) {id : ColumnId}
    (hid : id ∈ t.primaryKey) : t.Owns id := by
  rw [h.key] at hid
  obtain ⟨column, hcolumn, rfl⟩ := List.mem_map.mp hid
  exact ⟨column, List.mem_of_mem_filter hcolumn, rfl⟩

theorem Table.Laid.mem_of_mem_keyColumns {t : Table} (h : t.Laid) {column : Column}
    (hcolumn : column ∈ t.keyColumns) : column ∈ t.columns := by
  rw [h.keyColumns_eq] at hcolumn
  exact List.mem_of_mem_filter hcolumn

namespace Schema

/-- A number without a table stands for one without columns. -/
theorem table_cases (s : Schema) (id : TableId) : s.table id ∈ s.tables ∨ s.table id = default := by
  unfold table
  cases hfound : s.table? id with
  | none => exact Or.inr rfl
  | some t => exact Or.inl (List.mem_of_getElem? hfound)

/-- Every pair of a key of `t` joins a column of it with one of the referenced table. -/
structure Keyed (s : Schema) : Prop where
  named : (s.tables.map Table.name).Nodup
  pairs : ∀ t ∈ s.tables, ∀ key ∈ t.foreignKeys, ∃ target ∈ s.tables, target.id = key.target ∧
    ∀ pair ∈ key.pairs, t.Owns pair.foreign ∧ target.Owns pair.primary

theorem Sound.columnName_eq {s : Schema} (h : s.Sound) {t : Table} (ht : t ∈ s.tables)
    {column : Column} (hcolumn : column ∈ t.columns) : s.columnName column.id = column.name := by
  obtain ⟨i, hi⟩ := List.mem_iff_getElem?.mp hcolumn
  have hnumber := (h.laid t ht).numbered i column hi
  rw [columnName, column?, hnumber]
  show (((s.table? t.id).bind _).map Column.name).getD "" = column.name
  rw [h.table?_id ht]
  show ((t.columns[i]?).map Column.name).getD "" = column.name
  rw [hi]
  rfl

/-- A column that a table owns is found under its number. -/
theorem Sound.columnName_of_owns {s : Schema} (h : s.Sound) {t : Table} (ht : t ∈ s.tables)
    {id : ColumnId} (hid : t.Owns id) :
    ∃ column ∈ t.columns, column.id = id ∧ s.columnName id = column.name := by
  obtain ⟨column, hcolumn, rfl⟩ := hid
  exact ⟨column, hcolumn, rfl, h.columnName_eq ht hcolumn⟩

/-- Equal names mean equal tables. -/
theorem Keyed.find_name {s : Schema} (h : s.Keyed) {t : Table} (ht : t ∈ s.tables) :
    (s.tables.find? fun other => other.name == t.name) = some t := by
  cases hfound : s.tables.find? fun other => other.name == t.name with
  | none =>
    have hnot := List.find?_eq_none.mp hfound t ht
    simp at hnot
  | some other =>
    have hname : other.name = t.name := by simpa using List.find?_some hfound
    have hother := List.mem_of_find?_eq_some hfound
    rw [List.inj_on_of_nodup_map h.named hother ht hname]

/-- What tables of a schema have in common before and after their keys are resolved. -/
def SameColumns (before after : Table) : Prop :=
  after.id = before.id ∧ after.name = before.name ∧ after.columns = before.columns

theorem repeatedName_eq_none {seen names : List String} (h : repeatedName seen names = none) :
    names.Nodup ∧ ∀ name ∈ names, name ∉ seen := by
  induction names generalizing seen with
  | nil => exact ⟨List.nodup_nil, nofun⟩
  | cons name rest ih =>
    unfold repeatedName at h
    split at h
    · cases h
    · rename_i hnew
      obtain ⟨hrest, hunseen⟩ := ih h
      refine ⟨List.nodup_cons.mpr ⟨?_, hrest⟩, ?_⟩
      · intro hmem
        exact hunseen name hmem List.mem_cons_self
      · intro other hother
        rcases List.mem_cons.mp hother with rfl | hmem
        · simpa using hnew
        · intro hseen
          exact hunseen other hmem (List.mem_cons_of_mem _ hseen)

theorem layTables_names {index : Nat} {ds : List TableDeclaration} {tables : List Table}
    (h : layTables index ds = .ok tables) :
    tables.map Table.name = ds.map TableDeclaration.name := by
  induction ds generalizing index tables with
  | nil =>
    cases h
    rfl
  | cons d rest ih =>
    obtain ⟨first, hfirst, h⟩ := except_bind_ok.mp h
    obtain ⟨others, hothers, h⟩ := except_bind_ok.mp h
    cases h
    obtain ⟨columns, _, hpure⟩ := except_bind_ok.mp hfirst
    cases hpure
    rw [List.map_cons, List.map_cons, ih hothers]

theorem pairColumns_owned {t : Table} {names : List String} {primaries : List ColumnId}
    {pairs : List KeyPair} (h : pairColumns t names primaries = .ok pairs) :
    ∀ pair ∈ pairs, t.Owns pair.foreign ∧ pair.primary ∈ primaries := by
  intro pair hpair
  obtain ⟨⟨name, primary⟩, hmem, hfound⟩ := mem_of_mapM_ok h hpair
  simp only at hfound
  split at hfound
  · rename_i column hcolumn
    cases hfound
    exact ⟨Table.owns_of_findColumn hcolumn, (List.of_mem_zip hmem).2⟩
  · cases hfound

theorem targetColumns_owned {t target : Table} (htarget : target.Laid) {names : List String}
    {ids : List ColumnId} (h : targetColumns t target names = .ok ids) :
    ∀ id ∈ ids, target.Owns id := by
  intro id hid
  unfold targetColumns at h
  split at h
  · cases h
    exact htarget.owns_of_mem_primaryKey hid
  · obtain ⟨name, _, hfound⟩ := mem_of_mapM_ok h hid
    split at hfound
    · rename_i column hcolumn
      cases hfound
      exact Table.owns_of_findColumn hcolumn
    · cases hfound

/-- A resolved key joins columns of its table with columns of the one it references. -/
theorem resolveKey_owned {tables : List Table} (hlaid : ∀ t ∈ tables, t.Laid) {t : Table}
    {d : KeyDeclaration} {key : ForeignKey} (h : resolveKey tables t d = .ok key) :
    ∃ target ∈ tables, target.id = key.target ∧
      ∀ pair ∈ key.pairs, t.Owns pair.foreign ∧ target.Owns pair.primary := by
  unfold resolveKey at h
  split at h
  · cases h
  · rename_i target hfound
    have htarget := List.mem_of_find?_eq_some hfound
    obtain ⟨primaries, hprimaries, h⟩ := except_bind_ok.mp h
    split at h
    · cases h
    · obtain ⟨pairs, hpairs, h⟩ := except_bind_ok.mp h
      cases h
      refine ⟨target, htarget, rfl, ?_⟩
      intro pair hpair
      obtain ⟨hforeign, hprimary⟩ := pairColumns_owned hpairs pair hpair
      exact ⟨hforeign, targetColumns_owned (hlaid target htarget) hprimaries _ hprimary⟩

/-- The tables whose keys are resolved, in their order, with the declarations of the keys. -/
theorem resolveKeys_declared {tables : List Table} {declared : List (Table × TableDeclaration)}
    {resolved : List Table} (h : resolveKeys tables declared = .ok resolved) :
    resolved.map Table.name = declared.map (fun p => p.1.name) ∧
      ∀ t ∈ resolved, ∃ p ∈ declared, SameColumns p.1 t ∧
        ∀ key ∈ t.foreignKeys, ∃ d, resolveKey tables p.1 d = .ok key := by
  have hkept := resolveKeys_forall₂ h
  constructor
  · rw [eq_comm, ← List.forall₂_eq_eq_eq, List.forall₂_map_left_iff, List.forall₂_map_right_iff]
    refine hkept.imp ?_
    rintro p t ⟨hsame, _⟩
    rw [hsame]
  · intro t ht
    obtain ⟨p, hp, hsame, hkeys⟩ := mem_left_of_forall₂ hkept ht
    refine ⟨p, hp, ?_, ?_⟩
    · rw [hsame]
      exact ⟨rfl, rfl, rfl⟩
    · intro key hkey
      obtain ⟨declaration, _, hresolved⟩ := mem_of_mapM_ok hkeys hkey
      exact ⟨declaration, hresolved⟩

/-- A schema that was built has keyed tables. -/
theorem build_keyed {ds : List TableDeclaration} {s : Schema} (h : build ds = .ok s) :
    s.Keyed := by
  obtain ⟨hdistinct, tables, resolved, htables, hresolved, rfl⟩ := build_inv h
  have hlaid : ∀ t ∈ tables, t.Laid := by
    intro t ht
    obtain ⟨i, hi⟩ := List.mem_iff_getElem?.mp ht
    exact (layTables_laid htables i t hi).2
  have hnames := layTables_names htables
  have hlength : tables.length = ds.length := by simpa using congrArg List.length hnames
  obtain ⟨hkept, hdeclared⟩ := resolveKeys_declared hresolved
  have hzip : (tables.zip ds).map (fun p => p.1.name) = tables.map Table.name := by
    calc (tables.zip ds).map (fun p => p.1.name)
        = ((tables.zip ds).map Prod.fst).map Table.name := by rw [List.map_map]; rfl
      _ = tables.map Table.name := by rw [List.map_fst_zip (Nat.le_of_eq hlength)]
  refine ⟨?_, ?_⟩
  · rw [hkept, hzip, hnames]
    exact (repeatedName_eq_none hdistinct).1
  · intro t ht key hkey
    obtain ⟨p, hp, ⟨_, _, hcolumns⟩, hkeys⟩ := hdeclared t ht
    obtain ⟨d, hresolve⟩ := hkeys key hkey
    obtain ⟨target, htarget, hid, hpairs⟩ := resolveKey_owned hlaid hresolve
    obtain ⟨i, hi⟩ := List.mem_iff_getElem?.mp htarget
    have hbound : i < (tables.zip ds).length := by
      have hlt := (List.getElem?_eq_some_iff.mp hi).1
      rw [List.length_zip, ← hlength, Nat.min_self]
      exact hlt
    have hsize : resolved.length = (tables.zip ds).length := by
      simpa using congrArg List.length hkept
    obtain ⟨after, hafter⟩ : ∃ after, resolved[i]? = some after :=
      ⟨resolved[i], List.getElem?_eq_getElem (by omega)⟩
    obtain ⟨_, q, hq, hsame⟩ := resolveKeys_paired hresolved i after hafter
    have hq' : tables[i]? = some q.1 := (List.getElem?_zip_eq_some.mp hq).1
    rw [hi, Option.some.injEq] at hq'
    have hafterId : after.id = target.id := by rw [hsame, hq']
    have hafterColumns : after.columns = target.columns := by rw [hsame, hq']
    refine ⟨after, List.mem_of_getElem? hafter, hafterId.trans hid, ?_⟩
    intro pair hpair
    obtain ⟨hforeign, hprimary⟩ := hpairs pair hpair
    refine ⟨?_, ?_⟩
    · rw [Table.Owns, hcolumns]
      exact hforeign
    · rw [Table.Owns, hafterColumns]
      exact hprimary

/-- No two columns of a table agree in their names, up to case. -/
def NamedApart (s : Schema) : Prop :=
  ∀ t ∈ s.tables, (t.columns.map fun column => lowerAscii column.name).Nodup

theorem layColumns_nodup {table : TableId} {tableName : String} {laid columns : List Column}
    {ds : List ColumnDeclaration} (hlaid : (laid.map fun column => lowerAscii column.name).Nodup)
    (h : layColumns table tableName laid ds = .ok columns) :
    (columns.map fun column => lowerAscii column.name).Nodup := by
  induction ds generalizing laid with
  | nil =>
    cases h
    exact hlaid
  | cons d rest ih =>
    unfold layColumns at h
    split at h
    · cases h
    · rename_i hnew
      refine ih ?_ h
      rw [List.map_append, List.nodup_append]
      refine ⟨hlaid, List.nodup_singleton _, fun name hname other hother heq => hnew ?_⟩
      obtain ⟨column, hcolumn, rfl⟩ := List.mem_map.mp hname
      rw [List.mem_singleton.mp hother] at heq
      exact List.any_eq_true.mpr ⟨column, hcolumn, beq_iff_eq.mpr heq⟩

theorem layTables_nodup {index : Nat} {ds : List TableDeclaration} {tables : List Table}
    (h : layTables index ds = .ok tables) :
    ∀ t ∈ tables, (t.columns.map fun column => lowerAscii column.name).Nodup := by
  induction ds generalizing index tables with
  | nil =>
    cases h
    exact List.forall_mem_nil _
  | cons d rest ih =>
    obtain ⟨first, hfirst, h⟩ := except_bind_ok.mp h
    obtain ⟨others, hothers, h⟩ := except_bind_ok.mp h
    cases h
    obtain ⟨columns, hcolumns, hpure⟩ := except_bind_ok.mp hfirst
    cases hpure
    have hnone : (([] : List Column).map fun column => lowerAscii column.name).Nodup :=
      List.nodup_nil
    exact List.forall_mem_cons.mpr ⟨layColumns_nodup hnone hcolumns, ih hothers⟩

/-- The columns of a table that was built have names of their own. -/
theorem build_namedApart {ds : List TableDeclaration} {s : Schema} (h : build ds = .ok s) :
    s.NamedApart := by
  obtain ⟨_, tables, resolved, htables, hresolved, rfl⟩ := build_inv h
  intro t ht
  obtain ⟨p, hp, ⟨_, _, hcolumns⟩, _⟩ := (resolveKeys_declared hresolved).2 t ht
  rw [hcolumns]
  exact layTables_nodup htables p.1 (List.of_mem_zip hp).1

/-- A column of a table is known by its name. -/
theorem NamedApart.eq_of_columnName {s : Schema} (h : s.NamedApart) (hs : s.Sound) {t : Table}
    (ht : t ∈ s.tables) {id other : ColumnId} (hid : t.Owns id) (hother : t.Owns other)
    (hname : lowerAscii (s.columnName id) = lowerAscii (s.columnName other)) : id = other := by
  obtain ⟨column, hcolumn, rfl, hcolumnName⟩ := hs.columnName_of_owns ht hid
  obtain ⟨found, hfound, rfl, hfoundName⟩ := hs.columnName_of_owns ht hother
  rw [hcolumnName, hfoundName] at hname
  exact congrArg Column.id (List.inj_on_of_nodup_map (h t ht) hcolumn hfound hname)

end Schema

end ShapeSql
