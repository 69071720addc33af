import Mathlib.Data.List.Basic
import ShapeSql.Proofs.Except
import ShapeSql.Schema.Declaration

namespace ShapeSql

namespace Table

/-- Columns are numbered by their positions in the table, and the key is made of some of them. -/
structure Laid (t : Table) : Prop where
  numbered : ∀ (i : Nat) (c : Column), t.columns[i]? = some c → c.id = ⟨t.id, i⟩
  key : t.primaryKey = (t.columns.filter Column.primaryKey).map Column.id

theorem Laid.keyColumns_eq {t : Table} (h : t.Laid) :
    t.keyColumns = t.columns.filter Column.primaryKey := by
  have hfound : ∀ c ∈ t.columns, t.columns[c.id.index]? = some c := by
    intro c hc
    obtain ⟨i, hi⟩ := List.mem_iff_getElem?.mp hc
    rw [h.numbered i c hi]
    exact hi
  rw [keyColumns, h.key, List.filterMap_map]
  calc (t.columns.filter Column.primaryKey).filterMap (fun c => t.columns[c.id.index]?)
      = (t.columns.filter Column.primaryKey).filterMap some :=
        List.filterMap_congr fun c hc => hfound c (List.mem_of_mem_filter hc)
    _ = t.columns.filter Column.primaryKey := List.filterMap_some

/-- A column is known by its number. -/
theorem Laid.eq_of_id {t : Table} (h : t.Laid) {c c' : Column} (hc : c ∈ t.columns)
    (hc' : c' ∈ t.columns) (hid : c.id = c'.id) : c = c' := by
  obtain ⟨i, hi⟩ := List.mem_iff_getElem?.mp hc
  obtain ⟨j, hj⟩ := List.mem_iff_getElem?.mp hc'
  rw [h.numbered i c hi, h.numbered j c' hj, ColumnId.mk.injEq] at hid
  obtain ⟨_, rfl⟩ := hid
  exact Option.some.inj (hi.symm.trans hj)

/-- A table without a key has no key columns. -/
theorem hasKey_of_keyColumns {t : Table} (h : ¬t.keyColumns.isEmpty = true) : t.hasKey = true := by
  cases hkey : t.hasKey with
  | true => rfl
  | false =>
    rw [hasKey, Bool.not_eq_false', List.isEmpty_iff] at hkey
    rw [keyColumns, hkey] at h
    exact absurd rfl h

theorem Laid.keyColumns_ne_nil {t : Table} (h : t.Laid) (hkey : t.hasKey = true) :
    t.keyColumns ≠ [] := by
  intro hnil
  rw [h.keyColumns_eq] at hnil
  rw [hasKey, h.key, hnil] at hkey
  cases hkey

end Table

namespace Schema

structure Sound (s : Schema) : Prop where
  placed : ∀ (i : Nat) (t : Table), s.tables[i]? = some t → t.id = ⟨i⟩
  laid : ∀ t ∈ s.tables, t.Laid
  paired : ∀ t ∈ s.tables, ∀ key ∈ t.foreignKeys, key.pairs ≠ []

theorem Sound.table?_id {s : Schema} (h : s.Sound) {t : Table} (ht : t ∈ s.tables) :
    s.table? t.id = some t := by
  obtain ⟨i, hi⟩ := List.mem_iff_getElem?.mp ht
  rw [h.placed i t hi]
  exact hi

theorem Sound.table_id {s : Schema} (h : s.Sound) {t : Table} (ht : t ∈ s.tables) :
    s.table t.id = t := by
  rw [table, h.table?_id ht]
  rfl

/-- A table is known by its number. -/
theorem Sound.eq_of_id {s : Schema} (h : s.Sound) {t u : Table} (ht : t ∈ s.tables) (hu : u ∈ s.tables)
    (hid : t.id = u.id) : t = u := by
  rw [← h.table_id ht, ← h.table_id hu, hid]

theorem mem_of_findTable {s : Schema} {name : String} {t : Table} (h : s.findTable name = some t) :
    t ∈ s.tables := mem_of_findNamed h

theorem layColumns_numbered {table : TableId} {tableName : String} {laid columns : List Column}
    {ds : List ColumnDeclaration}
    (hlaid : ∀ (i : Nat) (c : Column), laid[i]? = some c → c.id = ⟨table, i⟩)
    (h : layColumns table tableName laid ds = .ok columns) :
    ∀ (i : Nat) (c : Column), columns[i]? = some c → c.id = ⟨table, i⟩ := by
  induction ds generalizing laid with
  | nil =>
    cases h
    exact hlaid
  | cons d rest ih =>
    unfold layColumns at h
    split at h
    · cases h
    · apply ih _ h
      intro i c hc
      rw [List.getElem?_append] at hc
      split at hc
      · exact hlaid i c hc
      · rw [List.getElem?_singleton] at hc
        split at hc
        · cases hc
          have hlast : i = laid.length := by omega
          rw [hlast]
        · cases hc

theorem layTable_laid {index : Nat} {d : TableDeclaration} {t : Table}
    (h : layTable index d = .ok t) : t.id = ⟨index⟩ ∧ t.Laid := by
  obtain ⟨columns, hcolumns, hpure⟩ := except_bind_ok.mp h
  cases hpure
  refine ⟨rfl, layColumns_numbered ?_ hcolumns, rfl⟩
  intro i c hc
  cases hc

theorem layTables_laid {index : Nat} {ds : List TableDeclaration} {tables : List Table}
    (h : layTables index ds = .ok tables) :
    ∀ (i : Nat) (t : Table), tables[i]? = some t → t.id = ⟨index + i⟩ ∧ t.Laid := by
  induction ds generalizing index tables with
  | nil =>
    cases h
    exact nofun
  | cons d rest ih =>
    obtain ⟨first, hfirst, h⟩ := except_bind_ok.mp h
    obtain ⟨others, hothers, h⟩ := except_bind_ok.mp h
    cases h
    intro i t ht
    cases i with
    | zero =>
      cases ht
      exact layTable_laid hfirst
    | succ i =>
      obtain ⟨hid, hlaid⟩ := ih hothers i t ht
      refine ⟨?_, hlaid⟩
      have hindex : index + 1 + i = index + (i + 1) := by omega
      rw [hid, hindex]

theorem pairColumns_length {t : Table} {names : List String} {primaries : List ColumnId}
    {pairs : List KeyPair} (h : pairColumns t names primaries = .ok pairs) :
    pairs.length = min names.length primaries.length := by
  rw [length_of_mapM_ok h, List.length_zip]

/-- A key without columns is refused. -/
theorem resolveKey_paired {tables : List Table} {t : Table} {d : KeyDeclaration} {key : ForeignKey}
    (h : resolveKey tables t d = .ok key) : key.pairs ≠ [] := by
  unfold resolveKey at h
  split at h
  · cases h
  · obtain ⟨primaries, _, h⟩ := except_bind_ok.mp h
    split at h
    · cases h
    · rename_i hpaired
      obtain ⟨pairs, hpairs, h⟩ := except_bind_ok.mp h
      cases h
      rw [not_or, not_not] at hpaired
      obtain ⟨hlength, hsome⟩ := hpaired
      have hcount := pairColumns_length hpairs
      have hpositive := List.length_pos_iff.mpr hsome
      apply List.length_pos_iff.mp
      show 0 < pairs.length
      omega

/-- A table keeps its columns when its keys are resolved, one for each that it declares. -/
theorem resolveKeys_forall₂ {tables : List Table} {declared : List (Table × TableDeclaration)}
    {resolved : List Table} (h : resolveKeys tables declared = .ok resolved) :
    List.Forall₂ (fun p t => t = { p.1 with foreignKeys := t.foreignKeys } ∧
      p.2.foreignKeys.mapM (resolveKey tables p.1) = .ok t.foreignKeys) declared resolved := by
  induction declared generalizing resolved with
  | nil =>
    cases h
    exact .nil
  | cons first rest ih =>
    obtain ⟨table, d⟩ := first
    obtain ⟨keys, hkeys, h⟩ := except_bind_ok.mp h
    obtain ⟨others, hothers, h⟩ := except_bind_ok.mp h
    cases h
    exact .cons ⟨rfl, hkeys⟩ (ih hothers)

/-- Resolving the keys of tables changes nothing else about them. -/
theorem resolveKeys_paired {tables : List Table} {declared : List (Table × TableDeclaration)}
    {resolved : List Table} (h : resolveKeys tables declared = .ok resolved) :
    ∀ (i : Nat) (t : Table), resolved[i]? = some t → (∀ key ∈ t.foreignKeys, key.pairs ≠ []) ∧
      ∃ p, declared[i]? = some p ∧ t = { p.1 with foreignKeys := t.foreignKeys } := by
  intro i t ht
  obtain ⟨p, hp, hkept, hkeys⟩ := getElem?_of_forall₂ (resolveKeys_forall₂ h).flip ht
  refine ⟨?_, p, hp, hkept⟩
  intro key hkey
  obtain ⟨declaration, _, hresolved⟩ := mem_of_mapM_ok hkeys hkey
  exact resolveKey_paired hresolved

/-- A schema is built from declarations of distinct names: its tables are laid first, and their keys
resolved afterwards. -/
theorem build_inv {ds : List TableDeclaration} {s : Schema} (h : build ds = .ok s) :
    repeatedName [] (ds.map TableDeclaration.name) = none ∧
      ∃ tables resolved, layTables 0 ds = .ok tables ∧
        resolveKeys tables (tables.zip ds) = .ok resolved ∧ s = ⟨resolved⟩ := by
  unfold build at h
  split at h
  · cases h
  · obtain ⟨tables, htables, h⟩ := except_bind_ok.mp h
    obtain ⟨resolved, hresolved, h⟩ := except_bind_ok.mp h
    cases h
    exact ⟨‹_›, tables, resolved, htables, hresolved, rfl⟩

/-- A schema that was built is sound. -/
theorem build_sound {ds : List TableDeclaration} {s : Schema} (h : build ds = .ok s) : s.Sound := by
  obtain ⟨_, tables, resolved, htables, hresolved, rfl⟩ := build_inv h
  have hlaid := layTables_laid htables
  have hkept : ∀ (i : Nat) (t : Table), resolved[i]? = some t → t.id = ⟨i⟩ ∧ t.Laid := by
    intro i t ht
    obtain ⟨_, ⟨before, d⟩, hp, heq⟩ := resolveKeys_paired hresolved i t ht
    have hbefore : tables[i]? = some before := (List.getElem?_zip_eq_some.mp hp).1
    obtain ⟨hid, hbeforeLaid⟩ := hlaid i before hbefore
    rw [heq]
    refine ⟨?_, hbeforeLaid.numbered, hbeforeLaid.key⟩
    rw [Nat.zero_add] at hid
    exact hid
  exact {
    placed := fun i t ht => (hkept i t ht).1
    laid := by
      intro t ht
      obtain ⟨i, hi⟩ := List.mem_iff_getElem?.mp ht
      exact (hkept i t hi).2
    paired := by
      intro t ht
      obtain ⟨i, hi⟩ := List.mem_iff_getElem?.mp ht
      exact (resolveKeys_paired hresolved i t hi).1 }

end Schema

end ShapeSql
