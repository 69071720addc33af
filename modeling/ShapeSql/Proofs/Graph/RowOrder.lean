import ShapeSql.Proofs.Graph.Restored
import ShapeSql.Proofs.Value.Reordered

/-!
The order of rows. A query without an ordering returns its rows in any order, and a join repeats them.
Grouping depends on the set of rows alone, up to the order of the entities at each level: where rows
with the same keys agree, where sibling levels are told apart and where a single-valued field shows one
entity, two result sets of the same rows materialize into the same graph up to the order of collections.
-/

namespace ShapeSql

namespace Rows

/-- The same rows in any order, each any number of times. -/
structure SameSet (a b : Rows) : Prop where
  columns : a.columns = b.columns
  rows : ∀ row, row ∈ a.rows ↔ row ∈ b.rows

/-- No cell is a float, a list or a record. -/
def Plain (rows : Rows) : Prop := ∀ row ∈ rows.rows, ∀ cell ∈ row, cell.isPlain = true

theorem sameSet_iff {a b : Rows} : a.SameSet b ↔ a.columns = b.columns ∧
    (∀ row ∈ a.rows, ∃ other ∈ b.rows, other = row) ∧ ∀ row ∈ b.rows, ∃ other ∈ a.rows, other = row := by
  simp only [exists_eq_right]
  constructor
  · exact fun h => ⟨h.columns, fun row => (h.rows row).mp, fun row => (h.rows row).mpr⟩
  · exact fun h => ⟨h.1, fun row => ⟨h.2.1 row, h.2.2 row⟩⟩

instance (a b : Rows) : Decidable (a.SameSet b) := decidable_of_iff _ sameSet_iff.symm

instance (rows : Rows) : Decidable rows.Plain :=
  inferInstanceAs (Decidable (∀ _ ∈ _, ∀ _ ∈ _, _))

end Rows

/-- The same rows, whatever their order, their numbers and how often they come. -/
def SameRows (A B : List NumberedRow) : Prop := ∀ row, row ∈ A.map Prod.fst ↔ row ∈ B.map Prod.fst

namespace LevelTree

/-- Rows that have the same keys at each level from the root down to some level have the same values at
that level. -/
def KeysDecide (levels : LevelTree) (rows : Rows) : Prop :=
  ∀ v ∈ levels.visits, ∀ a ∈ rows.rows, ∀ b ∈ rows.rows,
    (∀ level ∈ v.lineage,
      level.keyOf (level.values rows.columns a) = level.keyOf (level.values rows.columns b)) →
    v.label.values rows.columns a = v.label.values rows.columns b

mutual

/-- The rows of one entity show at most one entity at the level of each single-valued field. -/
def ShowsOne (columns : List String) (levels : LevelTree) (rows : List NumberedRow) (base : Path) :
    FieldTree → Prop
  | .node field kids =>
    if field.cyclic || field.isScalar then True
    else match levels.child? (base.join field.name) with
      | some below =>
        let present := rows.filter (below.label.shows columns false)
        (field.isList = false → ∀ a ∈ present, ∀ b ∈ present,
          below.label.rowKey columns a = below.label.rowKey columns b) ∧
        ∀ first ∈ present, ShowsOneAll columns below (below.label.sharing columns first present) .root kids
      | none => ShowsOneAll columns levels rows (base.join field.name) kids

def ShowsOneAll (columns : List String) (levels : LevelTree) (rows : List NumberedRow) (base : Path) :
    List FieldTree → Prop
  | [] => True
  | t :: ts =>
    (t.label.directives.exclude = false → ShowsOne columns levels rows base t) ∧
      ShowsOneAll columns levels rows base ts

end

/-- Every single-valued field of an output shows at most one entity of the rows. -/
def Singles (levels : LevelTree) (output : FieldTree) (rows : Rows) : Prop :=
  ∀ first ∈ rows.rows.zipIdx, ShowsOneAll rows.columns levels
    (levels.label.sharing rows.columns first rows.rows.zipIdx) .root output.children

mutual

def decidableShowsOne (columns : List String) : ∀ (t : FieldTree) (levels : LevelTree)
    (rows : List NumberedRow) (base : Path), Decidable (ShowsOne columns levels rows base t)
  | .node field kids, levels, rows, base =>
    if hshown : (field.cyclic || field.isScalar) = true then
      .isTrue (by
        rw [ShowsOne, if_pos hshown]
        trivial)
    else match hchild : levels.child? (base.join field.name) with
      | some below =>
        let present := rows.filter (below.label.shows columns false)
        have := fun first => decidableShowsOneAll columns kids below
          (below.label.sharing columns first present) .root
        decidable_of_iff
          ((field.isList = false → ∀ a ∈ present, ∀ b ∈ present,
            below.label.rowKey columns a = below.label.rowKey columns b) ∧
          ∀ first ∈ present, ShowsOneAll columns below (below.label.sharing columns first present)
            .root kids) (by
              rw [ShowsOne, if_neg hshown, hchild])
      | none =>
        have := decidableShowsOneAll columns kids levels rows (base.join field.name)
        decidable_of_iff (ShowsOneAll columns levels rows (base.join field.name) kids) (by
          rw [ShowsOne, if_neg hshown, hchild])

def decidableShowsOneAll (columns : List String) : ∀ (ts : List FieldTree) (levels : LevelTree)
    (rows : List NumberedRow) (base : Path), Decidable (ShowsOneAll columns levels rows base ts)
  | [], _, _, _ => inferInstanceAs (Decidable True)
  | t :: ts, levels, rows, base =>
    have := decidableShowsOne columns t levels rows base
    have := decidableShowsOneAll columns ts levels rows base
    inferInstanceAs (Decidable ((_ → _) ∧ _))

end

instance (levels : LevelTree) (output : FieldTree) (rows : Rows) :
    Decidable (levels.Singles output rows) :=
  have := fun first => decidableShowsOneAll rows.columns output.children levels
    (levels.label.sharing rows.columns first rows.rows.zipIdx) .root
  inferInstanceAs (Decidable (∀ _ ∈ _, _))

instance (levels : LevelTree) (rows : Rows) : Decidable (levels.KeysDecide rows) :=
  inferInstanceAs (Decidable (∀ _ ∈ _, ∀ _ ∈ _, ∀ _ ∈ _, _ → _))

mutual

/-- Two rows agree at each level down to which they have the same keys. -/
def Agree (columns : List String) (a b : List Value) : LevelTree → Prop
  | .node level kids =>
    level.keyOf (level.values columns a) = level.keyOf (level.values columns b) →
      level.values columns a = level.values columns b ∧ AgreeAll columns a b kids

def AgreeAll (columns : List String) (a b : List Value) : List LevelTree → Prop
  | [] => True
  | t :: ts => Agree columns a b t ∧ AgreeAll columns a b ts

end

section Agree

variable {columns : List String} {a b : List Value}

mutual

theorem agree_of_visits : ∀ (t : LevelTree) {above : List Level},
    (∀ level ∈ above, level.keyOf (level.values columns a) = level.keyOf (level.values columns b)) →
    (∀ v ∈ t.visitsBelow above,
      (∀ level ∈ v.lineage,
        level.keyOf (level.values columns a) = level.keyOf (level.values columns b)) →
      v.label.values columns a = v.label.values columns b) →
    Agree columns a b t
  | .node level kids, above, habove, hvisits => by
    intro hkey
    have hlineage : ∀ l ∈ level :: above,
        l.keyOf (l.values columns a) = l.keyOf (l.values columns b) :=
      List.forall_mem_cons.mpr ⟨hkey, habove⟩
    exact ⟨hvisits _ List.mem_cons_self hlineage,
      agreeAll_of_visits kids hlineage fun v hv => hvisits v (List.mem_cons_of_mem _ hv)⟩

theorem agreeAll_of_visits : ∀ (ts : List LevelTree) {above : List Level},
    (∀ level ∈ above, level.keyOf (level.values columns a) = level.keyOf (level.values columns b)) →
    (∀ v ∈ Tree.visitsBelowAll above ts,
      (∀ level ∈ v.lineage,
        level.keyOf (level.values columns a) = level.keyOf (level.values columns b)) →
      v.label.values columns a = v.label.values columns b) →
    AgreeAll columns a b ts
  | [], _, _, _ => trivial
  | t :: ts, _, habove, hvisits =>
    ⟨agree_of_visits t habove fun v hv => hvisits v (List.mem_append_left _ hv),
      agreeAll_of_visits ts habove fun v hv => hvisits v (List.mem_append_right _ hv)⟩

end

theorem agree_of_mem : ∀ {ts : List LevelTree} {t : LevelTree}, AgreeAll columns a b ts → t ∈ ts →
    Agree columns a b t
  | _ :: _, _, ⟨hfirst, hrest⟩, ht => by
    rcases List.mem_cons.mp ht with rfl | ht
    · exact hfirst
    · exact agree_of_mem hrest ht

end Agree

end LevelTree

namespace SameRows

variable {A B : List NumberedRow}

theorem symm (h : SameRows A B) : SameRows B A := fun row => (h row).symm

theorem exists_left (h : SameRows A B) {b : NumberedRow} (hb : b ∈ B) : ∃ a ∈ A, a.1 = b.1 :=
  List.mem_map.mp ((h b.1).mpr (List.mem_map_of_mem hb))

/-- What is selected by the row alone is the same set of rows again. -/
theorem filter (h : SameRows A B) {p q : NumberedRow → Bool}
    (hpq : ∀ a b : NumberedRow, a.1 = b.1 → p a = q b) : SameRows (A.filter p) (B.filter q) := by
  have hhalf : ∀ {A B : List NumberedRow} {p q : NumberedRow → Bool}, SameRows A B →
      (∀ a b : NumberedRow, a.1 = b.1 → p a = q b) → ∀ row, row ∈ (A.filter p).map Prod.fst →
        row ∈ (B.filter q).map Prod.fst := by
    intro A B p q h hpq row hrow
    obtain ⟨a, ha, rfl⟩ := List.mem_map.mp hrow
    obtain ⟨ha, hp⟩ := List.mem_filter.mp ha
    obtain ⟨b, hb, hab⟩ := h.symm.exists_left ha
    exact List.mem_map.mpr ⟨b, List.mem_filter.mpr ⟨hb, (hpq a b hab.symm) ▸ hp⟩, hab⟩
  exact fun row => ⟨hhalf h hpq row, hhalf h.symm (fun b a hba => (hpq a b hba.symm).symm) row⟩

/-- The firsts of each key can be paired off by their keys. -/
theorem firsts_paired (h : SameRows A B) (level : Level) (columns : List String) :
    ∃ zs, List.Forall₂ (fun a b => level.rowKey columns a = level.rowKey columns b)
      (level.firsts columns A) zs ∧ zs.Perm (level.firsts columns B) := by
  have hmem : ∀ {A B : List NumberedRow}, SameRows A B → ∀ key,
      key ∈ A.map (level.rowKey columns) → key ∈ B.map (level.rowKey columns) := by
    intro A B h key hkey
    obtain ⟨a, ha, rfl⟩ := List.mem_map.mp hkey
    obtain ⟨b, hb, hab⟩ := h.symm.exists_left ha
    exact List.mem_map.mpr ⟨b, hb, by rw [Level.rowKey, Level.rowKey, hab]⟩
  have hkeys : ((level.firsts columns A).map (level.rowKey columns)).Perm
      ((level.firsts columns B).map (level.rowKey columns)) := by
    rw [Level.firsts, Level.firsts,
      List.perm_ext_iff_of_nodup (nodup_map_firstsBy _ A) (nodup_map_firstsBy _ B)]
    intro key
    rw [mem_map_firstsBy, mem_map_firstsBy]
    exact ⟨hmem h key, hmem h.symm key⟩
  have hown : List.Forall₂ (fun key b => key = level.rowKey columns b)
      ((level.firsts columns B).map (level.rowKey columns)) (level.firsts columns B) := by
    rw [List.forall₂_map_left_iff, List.forall₂_same]
    exact fun _ _ => rfl
  obtain ⟨zs, hpaired, hperm⟩ := List.perm_comp_forall₂ hkeys hown
  exact ⟨zs, List.forall₂_map_left_iff.mp hpaired, hperm⟩

end SameRows

namespace LevelTree

section Groups

variable {columns : List String} {A B : List NumberedRow}

/-- Entities of the same rows can be paired off by their keys, so what shows equal for such a pair shows
equal for all of them up to their order. -/
theorem grouped_reordered (columns : List String) (level : Level) (kids : List LevelTree)
    (isRoot : Bool) (h : SameRows A B) (toValue : Entity → Value)
    (hpair : ∀ a ∈ A.filter (level.shows columns isRoot), ∀ b ∈ B.filter (level.shows columns isRoot),
      level.rowKey columns a = level.rowKey columns b →
        (toValue (groupOf columns level kids (A.filter (level.shows columns isRoot)) a)).Reordered
          (toValue (groupOf columns level kids (B.filter (level.shows columns isRoot)) b))) :
    ∃ values, List.Forall₂ Value.Reordered
        ((grouped columns isRoot (.node level kids) A).map toValue) values ∧
      values.Perm ((grouped columns isRoot (.node level kids) B).map toValue) := by
  have hpresent : SameRows (A.filter (level.shows columns isRoot))
      (B.filter (level.shows columns isRoot)) := by
    apply h.filter
    intro a b hab
    rw [Level.shows, Level.shows, hab]
  obtain ⟨zs, hpaired, hperm⟩ := hpresent.firsts_paired level columns
  refine ⟨zs.map fun b => toValue (groupOf columns level kids
    (B.filter (level.shows columns isRoot)) b), ?_, ?_⟩
  · rw [grouped_node, List.map_map, List.forall₂_map_left_iff, List.forall₂_map_right_iff]
    rw [List.forall₂_iff_zip] at hpaired ⊢
    refine ⟨hpaired.1, fun {a b} hab => ?_⟩
    have hmem := List.of_mem_zip hab
    exact hpair a (mem_of_mem_firstsBy _ hmem.1) b
      (mem_of_mem_firstsBy _ (hperm.mem_iff.mp hmem.2)) (hpaired.2 hab)
  · rw [grouped_node, List.map_map]
    exact hperm.map _

/-- Two rows of one key, one from either side: they have the same values, and the rows that share their
key are the same and agree in turn below. -/
theorem agree_sharing {level : Level} {kids : List LevelTree} (h : SameRows A B)
    (hagree : ∀ a ∈ A, ∀ b ∈ A, Agree columns a.1 b.1 (.node level kids)) {a b : NumberedRow}
    (ha : a ∈ A) (hb : b ∈ B) (hkey : level.rowKey columns a = level.rowKey columns b) :
    level.values columns a.1 = level.values columns b.1 ∧
      SameRows (level.sharing columns a A) (level.sharing columns b B) ∧
      ∀ x ∈ level.sharing columns a A, ∀ y ∈ level.sharing columns a A,
        AgreeAll columns x.1 y.1 kids := by
  refine ⟨?_, ?_, ?_⟩
  · obtain ⟨a', ha', heq⟩ := h.exists_left hb
    have hboth := hagree a ha a' ha'
    rw [heq] at hboth
    exact (hboth hkey).1
  · apply h.filter
    intro x y hxy
    have hkeys : level.rowKey columns x = level.rowKey columns y := by
      rw [Level.rowKey, Level.rowKey, hxy]
    rw [hkeys, hkey]
  · intro x hx y hy
    obtain ⟨hx, hkeyx⟩ := List.mem_filter.mp hx
    obtain ⟨hy, hkeyy⟩ := List.mem_filter.mp hy
    have hsame : level.rowKey columns x = level.rowKey columns y :=
      (of_decide_eq_true hkeyx).trans (of_decide_eq_true hkeyy).symm
    exact (hagree x hx y hy hsame).2

/-- The collection along the way to a level holds the groups of that level. -/
theorem along_groupedBelow (columns : List String) (rows : List NumberedRow) {way : Path}
    {below : LevelTree} : ∀ (ts : List LevelTree), (ts.map fun t => t.label.way).Nodup →
      (ts.find? fun t => t.label.relative == way) = some below →
        Nested.along (groupedBelow columns ts rows) way.display = grouped columns false below rows ∧
          below ∈ ts
  | t :: ts, hdistinct, hfind => by
    rw [List.map_cons, List.nodup_cons] at hdistinct
    rw [groupedBelow, Nested.along, List.find?_cons]
    rw [List.find?_cons] at hfind
    cases hway : t.label.relative == way with
    | true =>
      rw [hway] at hfind
      cases hfind
      have hsame : (below.label.way == way.display) = true := by
        rw [Level.way, beq_iff_eq.mp hway, beq_self_eq_true]
      rw [hsame]
      exact ⟨rfl, List.mem_cons_self⟩
    | false =>
      rw [hway] at hfind
      obtain ⟨halong, hmem⟩ := along_groupedBelow columns rows ts hdistinct.2 hfind
      have hother : (t.label.way == way.display) = false := by
        apply beq_false_of_ne
        intro heq
        apply hdistinct.1
        have hfound := List.find?_some hfind
        rw [heq, ← beq_iff_eq.mp hfound]
        exact List.mem_map.mpr ⟨below, hmem, rfl⟩
      rw [hother]
      exact ⟨halong, List.mem_cons_of_mem _ hmem⟩

end Groups

section Shown

variable {columns : List String}

/-- The entity of a group of rows: it has the values of its first row and, below, the groups of its
rows. -/
structure Holds (columns : List String) (levels : LevelTree) (rows : List NumberedRow) (values : Record)
    (e : Entity) : Prop where
  values : e.values = values
  nested : e.nested = groupedBelow columns levels.children rows

theorem holds_groupOf (columns : List String) (level : Level) (kids : List LevelTree) (present : List NumberedRow)
    (first : NumberedRow) :
    Holds columns (.node level kids) (level.sharing columns first present)
      (level.values columns first.1) (groupOf columns level kids present first) :=
  ⟨rfl, rfl⟩

/-- Among at most one entity on either side the first ones show the same. -/
theorem headD_reordered {as bs cs : List Value} (h : List.Forall₂ Value.Reordered as bs)
    (hperm : bs.Perm cs) (hone : as.length ≤ 1) : (as.headD .null).Reordered (cs.headD .null) := by
  cases h with
  | nil =>
    rw [List.nil_perm.mp hperm]
    exact .same _
  | cons hab hrest =>
    cases hrest with
    | nil =>
      rw [← List.singleton_perm.mp hperm]
      exact hab
    | cons _ _ => exact absurd hone (by simp)

/-- Rows of one key make at most one entity. -/
theorem length_grouped_le (t : LevelTree) (isRoot : Bool) {rows : List NumberedRow}
    (h : ∀ a ∈ rows.filter (t.label.shows columns isRoot),
      ∀ b ∈ rows.filter (t.label.shows columns isRoot),
        t.label.rowKey columns a = t.label.rowKey columns b) :
    (grouped columns isRoot t rows).length ≤ 1 := by
  obtain ⟨level, kids⟩ := t
  rw [grouped_node, List.length_map]
  have hdistinct := nodup_map_firstsBy (level.rowKey columns)
    (rows.filter (level.shows columns isRoot))
  have hmem : ∀ a ∈ level.firsts columns (rows.filter (level.shows columns isRoot)),
      a ∈ rows.filter (level.shows columns isRoot) := fun a ha => mem_of_mem_firstsBy _ ha
  rw [← Level.firsts] at hdistinct
  cases hfirsts : level.firsts columns (rows.filter (level.shows columns isRoot)) with
  | nil => exact Nat.zero_le 1
  | cons a rest =>
    cases rest with
    | nil => exact Nat.le_refl 1
    | cons b rest =>
      rw [hfirsts] at hdistinct hmem
      have hsame := h a (hmem a List.mem_cons_self) b
        (hmem b (List.mem_cons_of_mem _ List.mem_cons_self))
      exact absurd (List.mem_cons.mpr (Or.inl hsame)) (List.nodup_cons.mp hdistinct).1

mutual

/-- Entities of the same rows show the same in a field, up to the order of collections. -/
theorem shown_reordered : ∀ (t : FieldTree) {levels : LevelTree} {A B : List NumberedRow}
    {values : Record} {e e' : Entity} (base : Path), levels.Apart → SameRows A B →
    (∀ a ∈ A, ∀ b ∈ A, AgreeAll columns a.1 b.1 levels.children) →
    Holds columns levels A values e → Holds columns levels B values e' →
    ShowsOne columns levels A base t →
      (Entity.shown levels e base t).Reordered (Entity.shown levels e' base t)
  | .node field kids, levels, A, B, values, e, e', base, hapart, hsame, hagree, he, he', hone => by
    rw [Entity.shown, Entity.shown]
    simp only [he.values, he'.values, he.nested, he'.nested]
    rw [ShowsOne] at hone
    by_cases hcyclic : field.cyclic = true
    · rw [if_pos hcyclic, if_pos hcyclic]
      exact .same _
    rw [if_neg hcyclic, if_neg hcyclic]
    by_cases hscalar : field.isScalar = true
    · rw [if_pos hscalar, if_pos hscalar]
      exact .same _
    rw [if_neg hscalar, if_neg hscalar]
    rw [if_neg (by simp [hcyclic, hscalar])] at hone
    cases hchild : levels.child? (base.join field.name) with
    | none =>
      rw [hchild] at hone
      have hmembers := (members_reordered kids (base.join field.name) hapart hsame hagree he he'
        hone).ofMembers
      simp only [hmembers.isAllNull_eq]
      split
      · exact .same _
      · exact hmembers.value
    | some below =>
      rw [hchild] at hone
      obtain ⟨level, below⟩ := below
      obtain ⟨hsingle, hbelow⟩ := hone
      obtain ⟨own, children⟩ := levels
      obtain ⟨halong, hmem⟩ := along_groupedBelow columns A children hapart.1 hchild
      obtain ⟨halong', _⟩ := along_groupedBelow columns B children hapart.1 hchild
      simp only [Tree.children, halong, halong']
      -- The entities of this level are paired off, and each pair shows the same.
      obtain ⟨records, hpaired, hperm⟩ := grouped_reordered columns level below false hsame
        (fun inner => Value.record (Record.ofMembers
          (Entity.members (.node level below) inner .root kids)))
        (by
          intro a ha b hb hkey
          have hrows : SameRows (A.filter (level.shows columns false))
              (B.filter (level.shows columns false)) := by
            apply hsame.filter
            intro x y hxy
            rw [Level.shows, Level.shows, hxy]
          have hlevel : ∀ x ∈ A.filter (level.shows columns false),
              ∀ y ∈ A.filter (level.shows columns false),
                Agree columns x.1 y.1 (.node level below) := by
            intro x hx y hy
            exact agree_of_mem (hagree x (List.mem_filter.mp hx).1 y (List.mem_filter.mp hy).1) hmem
          obtain ⟨hvalues, hsharing, hinner⟩ := agree_sharing hrows hlevel ha hb hkey
          have hgroup := holds_groupOf columns level below
            (B.filter (level.shows columns false)) b
          rw [← hvalues] at hgroup
          exact (members_reordered kids .root (Apart.of_mem hapart.2 hmem) hsharing hinner
            (holds_groupOf columns level below _ a) hgroup (hbelow a ha)).ofMembers.value)
      split
      · exact .list hpaired hperm
      · rename_i hlist
        apply headD_reordered hpaired hperm
        rw [List.length_map]
        exact length_grouped_le (.node level below) false (hsingle (Bool.eq_false_iff.mpr hlist))

theorem members_reordered : ∀ (ts : List FieldTree) {levels : LevelTree} {A B : List NumberedRow}
    {values : Record} {e e' : Entity} (base : Path), levels.Apart → SameRows A B →
    (∀ a ∈ A, ∀ b ∈ A, AgreeAll columns a.1 b.1 levels.children) →
    Holds columns levels A values e → Holds columns levels B values e' →
    ShowsOneAll columns levels A base ts →
      Record.Reordered (Entity.members levels e base ts) (Entity.members levels e' base ts)
  | [], _, _, _, _, _, _, _, _, _, _, _, _, _ => .nil
  | t :: ts, levels, A, B, values, e, e', base, hapart, hsame, hagree, he, he', ⟨hfirst, hrest⟩ => by
    have hothers := members_reordered ts base hapart hsame hagree he he' hrest
    rw [Entity.members, Entity.members]
    cases hexclude : t.label.directives.exclude with
    | true =>
      rw [if_pos rfl, if_pos rfl]
      exact hothers
    | false =>
      rw [if_neg Bool.false_ne_true, if_neg Bool.false_ne_true]
      exact .cons ⟨rfl, shown_reordered t base hapart hsame hagree he he' (hfirst hexclude)⟩ hothers

end

end Shown

/-- Result sets without compound cells and floats have plain keys at each level. -/
theorem plainKeys_of_plain (levels : LevelTree) {rows : Rows} (h : rows.Plain) :
    levels.PlainKeys rows.columns rows.rows.zipIdx := by
  have hcell : ∀ row ∈ rows.rows, ∀ name, (Rows.cell rows.columns row name).isPlain = true := by
    intro row hrow name
    unfold Rows.cell
    cases hfound : (rows.columns.zip row).find? fun entry => entry.1 == name with
    | none => rfl
    | some entry =>
      exact h row hrow entry.2 (List.of_mem_zip (List.mem_of_find?_eq_some hfound)).2
  intro level _ row hrow value hvalue
  obtain ⟨name, _, rfl⟩ := List.mem_map.mp hvalue
  have hrow : row.1 ∈ rows.rows := by
    rw [← List.zipIdx_map_fst 0 rows.rows]
    exact List.mem_map_of_mem hrow
  unfold Record.get?
  cases hfound : findNamed Prod.fst name (level.values rows.columns row.1) with
  | none => rfl
  | some member =>
    have hmember := Record.mem_of_mem_ofMembers (mem_of_findNamed hfound)
    obtain ⟨column, _, hcolumn⟩ := List.mem_map.mp hmember
    rw [Option.map_some, Option.getD_some, ← hcolumn]
    exact hcell row.1 hrow column.source

/-- The same rows, in any order and any number, give the same records up to the order of collections. -/
theorem records_reordered {levels : LevelTree} {output : FieldTree} {rows rows' : Rows}
    (hapart : levels.Apart) (hsame : rows.SameSet rows') (hplain : rows.Plain)
    (hdecide : levels.KeysDecide rows) (hsingles : levels.Singles output rows) :
    ∃ values, List.Forall₂ Value.Reordered
        ((levels.entities rows).map (Entity.toValue levels output)) values ∧
      values.Perm ((levels.entities rows').map (Entity.toValue levels output)) := by
  have hplain' : rows'.Plain := fun row hrow => hplain row ((hsame.rows row).mpr hrow)
  have hrows : SameRows rows.rows.zipIdx rows'.rows.zipIdx := by
    intro row
    rw [List.zipIdx_map_fst, List.zipIdx_map_fst]
    exact hsame.rows row
  have hgrouped : levels.entities rows = levels.grouped rows.columns true rows.rows.zipIdx :=
    foldl_addRow _ _ _ hapart (levels.plainKeys_of_plain hplain)
  have hgrouped' : levels.entities rows' = levels.grouped rows'.columns true rows'.rows.zipIdx :=
    foldl_addRow _ _ _ hapart (levels.plainKeys_of_plain hplain')
  rw [hgrouped, hgrouped', ← hsame.columns]
  have hagree : ∀ a ∈ rows.rows.zipIdx, ∀ b ∈ rows.rows.zipIdx, Agree rows.columns a.1 b.1 levels := by
    intro a ha b hb
    have hmem : ∀ c ∈ rows.rows.zipIdx, c.1 ∈ rows.rows := by
      intro c hc
      rw [← List.zipIdx_map_fst 0 rows.rows]
      exact List.mem_map_of_mem hc
    exact agree_of_visits levels (List.forall_mem_nil _) fun v hv =>
      hdecide v hv a.1 (hmem a ha) b.1 (hmem b hb)
  obtain ⟨level, kids⟩ := levels
  have hall : ∀ ns : List NumberedRow, ns.filter (level.shows rows.columns true) = ns := by
    intro ns
    exact List.filter_eq_self.mpr fun _ _ => rfl
  refine grouped_reordered rows.columns level kids true hrows (Entity.toValue (.node level kids) output) ?_
  simp only [hall]
  intro a ha b hb hkey
  obtain ⟨hvalues, hsharing, hinner⟩ := agree_sharing hrows hagree ha hb hkey
  have hgroup := holds_groupOf rows.columns level kids rows'.rows.zipIdx b
  rw [← hvalues] at hgroup
  exact (members_reordered output.children .root hapart hsharing hinner
    (holds_groupOf rows.columns level kids _ a) hgroup (hsingles a ha)).ofMembers.value

end LevelTree

/-- The graph does not depend on the order of the rows or on how often they come. A declared select
returning many materializes two result sets of the same distinct rows into values that are equal up to
the order of collections, or refuses both alike. Its sibling levels must be reached by ways that do not
print alike, the rows must have plain cells, rows with the same keys from the root down must agree at
each level, and single-valued fields must show one entity at most. -/
theorem Compiled.materialize_sameSet {declaration : SpecDeclaration} {shapes : Shapes}
    {spec : QuerySpec} {c : Compiler} {compiled : Compiled}
    (hspec : declaration.build shapes = .ok spec) (hcompile : c.compile spec = .ok compiled)
    (hmany : spec.outputKind = .many) :
    ∃ relations output, compiled.plan.relations = some relations ∧ spec.output = some output ∧
      ((LevelTree.ofRelations compiled.schema relations).Apart →
        ∀ rows rows' : Rows, rows.SameSet rows' → rows.Plain →
          (LevelTree.ofRelations compiled.schema relations).KeysDecide rows →
          (LevelTree.ofRelations compiled.schema relations).Singles output rows →
            Value.ReorderedResults (compiled.materialize rows) (compiled.materialize rows')) := by
  obtain ⟨_, output, _, _, relations, _, _, _, houtput, _, _, hrelations, _, _, hmaterializer⟩ :=
    Compiler.returned_of_compile hspec hcompile (Or.inr hmany)
  refine ⟨relations, output, hrelations, houtput, ?_⟩
  intro hapart rows rows' hsame hplain hdecide hsingles
  rw [(Compiler.ofSpec_of_compile hcompile).1] at hapart hdecide hsingles
  have hlist : ∀ rows : Rows, compiled.materialize rows =
      (Materializer.records (LevelTree.ofRelations c.schema relations) output rows).map .list := by
    intro rows
    rw [materialize, hmaterializer, hmany]
    rfl
  rw [hlist, hlist, Materializer.records, Materializer.records, ← hsame.columns]
  split
  · rfl
  · obtain ⟨values, hpaired, hperm⟩ :=
      LevelTree.records_reordered hapart hsame hplain hdecide hsingles
    exact .list hpaired hperm

/-- One person, with the cells of a pet and of a car in each row. -/
def ownedRows (pets : String) (cells : List (Value × Value)) : Rows where
  columns := ["Id", pets ++ ".Id", "Own.All.Code"]
  rows := cells.map fun cell => [.i32 1, cell.1, cell.2]
  widths := by
    intro row hrow
    obtain ⟨_, _, rfl⟩ := List.mem_map.mp hrow
    rfl

/-- Two pets and two cars, and the same rows in another order, one of them twice. -/
def petsAndCars : List (Value × Value) :=
  [(.i32 10, .i32 20), (.i32 10, .i32 21), (.i32 11, .i32 20), (.i32 11, .i32 21)]

def carsAndPets : List (Value × Value) :=
  [(.i32 11, .i32 21), (.i32 10, .i32 21), (.i32 11, .i32 21), (.i32 11, .i32 20), (.i32 10, .i32 20)]

/-- Rows that the order does not matter for. -/
def OrderFree (levels : LevelTree) (output : FieldTree) (rows rows' : Rows) : Prop :=
  levels.Apart ∧ rows.SameSet rows' ∧ rows.Plain ∧ levels.KeysDecide rows ∧ levels.Singles output rows

instance (levels : LevelTree) (output : FieldTree) (rows rows' : Rows) :
    Decidable (OrderFree levels output rows rows') :=
  inferInstanceAs (Decidable (_ ∧ _ ∧ _ ∧ _ ∧ _))

theorem Compiled.materialize_petsAndCars :
    ∃ schema spec compiled relations output, Schema.build ownedDeclarations = .ok schema ∧
      ownedList.build (ownedShapes "Pets") = .ok spec ∧
      (⟨schema, default, .exact⟩ : Compiler).compile spec = .ok compiled ∧
      compiled.plan.relations = some relations ∧ spec.output = some output ∧
      OrderFree (LevelTree.ofRelations compiled.schema relations) output
        (ownedRows "Pets" petsAndCars) (ownedRows "Pets" carsAndPets) ∧
      (compiled.materialize (ownedRows "Pets" petsAndCars)).toOption ≠
        (compiled.materialize (ownedRows "Pets" carsAndPets)).toOption ∧
      Value.ReorderedResults (compiled.materialize (ownedRows "Pets" petsAndCars))
        (compiled.materialize (ownedRows "Pets" carsAndPets)) := by
  obtain ⟨schema, spec, compiled, hschema, hspec, hcompile, htest⟩ :
      ∃ schema spec compiled, Schema.build ownedDeclarations = .ok schema ∧
        ownedList.build (ownedShapes "Pets") = .ok spec ∧
        (⟨schema, default, .exact⟩ : Compiler).compile spec = .ok compiled ∧
        ownedTest (fun _ compiled _ relations output =>
          decide (OrderFree (LevelTree.ofRelations compiled.schema relations) output
            (ownedRows "Pets" petsAndCars) (ownedRows "Pets" carsAndPets)) &&
          decide ((compiled.materialize (ownedRows "Pets" petsAndCars)).toOption ≠
            (compiled.materialize (ownedRows "Pets" carsAndPets)).toOption))
          ⟨schema, default, .exact⟩ spec compiled = true :=
    Compiler.exists_compiled (by decide +kernel)
  obtain ⟨_, hmany, query, relations, output, _, hrelations, houtput, htest⟩ := ownedTest_cases htest
  simp only [Bool.and_eq_true, decide_eq_true_eq] at htest
  obtain ⟨hfree, hdiffer⟩ := htest
  obtain ⟨relations', output', hrelations', houtput', hsame⟩ :=
    materialize_sameSet hspec hcompile hmany
  cases hrelations.symm.trans hrelations'
  cases houtput.symm.trans houtput'
  exact ⟨schema, spec, compiled, relations, output, hschema, hspec, hcompile, hrelations, houtput,
    hfree, hdiffer,
    hsame hfree.1 _ _ hfree.2.1 hfree.2.2.1 hfree.2.2.2.1 hfree.2.2.2.2⟩

/-- A compiled select returning many that the order of rows matters to, although their keys decide about
all of their columns. -/
def OrderTold (shapes : Shapes) (rows rows' : Rows) : Prop :=
  ∃ schema spec compiled relations, Schema.build ownedDeclarations = .ok schema ∧
    ownedList.build shapes = .ok spec ∧
    (⟨schema, default, .exact⟩ : Compiler).compile spec = .ok compiled ∧
    spec.operation = .select ∧ spec.outputKind = .many ∧
    compiled.plan.relations = some relations ∧ rows.SameSet rows' ∧ rows.Plain ∧
    (LevelTree.ofRelations compiled.schema relations).KeysDecide rows ∧
    ¬Value.ReorderedResults (compiled.materialize rows) (compiled.materialize rows')

/-- What two orders of the same rows are materialized into. -/
def toldTest (rows rows' : Rows) (value value' : Value) : Compiler → QuerySpec → Compiled → Bool :=
  ownedTest fun _ compiled _ relations _ =>
    decide (rows.SameSet rows' ∧ rows.Plain ∧
      (LevelTree.ofRelations compiled.schema relations).KeysDecide rows ∧
      (compiled.materialize rows).toOption = some value ∧
      (compiled.materialize rows').toOption = some value')

theorem orderTold_of_values {shapes : Shapes} {rows rows' : Rows} {value value' : Value}
    (htest : ∃ schema spec compiled, Schema.build ownedDeclarations = .ok schema ∧
      ownedList.build shapes = .ok spec ∧
      (⟨schema, default, .exact⟩ : Compiler).compile spec = .ok compiled ∧
      toldTest rows rows' value value' ⟨schema, default, .exact⟩ spec compiled = true)
    (hdiffer : ¬value.Reordered value') : OrderTold shapes rows rows' := by
  obtain ⟨schema, spec, compiled, hschema, hspec, hcompile, htest⟩ := htest
  obtain ⟨hselect, hmany, _, relations, _, _, hrelations, _, htest⟩ := ownedTest_cases htest
  obtain ⟨hsame, hplain, hdecide, hvalue, hvalue'⟩ := of_decide_eq_true htest
  refine ⟨schema, spec, compiled, relations, hschema, hspec, hcompile, hselect, hmany, hrelations,
    hsame, hplain, hdecide, ?_⟩
  rw [ok_of_toOption hvalue, ok_of_toOption hvalue']
  exact hdiffer

/-- People who keep one pet. -/
def keptShapes : Shapes := .ofList [
  ⟨"Person", none, [⟨"Id", .i32, false, default⟩, ⟨"Pet", .shape "Pet", false, default⟩]⟩,
  ⟨"Pet", none, [⟨"Id", .i32, false, default⟩]⟩]

/-- One person and two pets. -/
def keptRows (first second : Int32) : Rows where
  columns := ["Id", "Pet.Id"]
  rows := [[.i32 1, .i32 first], [.i32 1, .i32 second]]
  widths := by simp

/-- A person and a pet. -/
def keptValue (pet : Int32) : Value :=
  .list [.record [("Id", .i32 1), ("Pet", .record [("Id", .i32 pet)])]]

/-- A person with a pet and a car of the given cells. -/
def mixedValue (pet car : Value) : Value :=
  .list [.record [("Id", .i32 1), ("Own.All", .list [.record [("Id", pet)]]),
    ("Own", .record [("All", .list [.record [("Code", car)]])])]]

/-- The order of rows tells where a single-valued field leads to two entities, the first of which it
shows, and where sibling levels are reached by ways that print alike, so that their entities run
together. -/
theorem Compiled.materialize_orderTold :
    OrderTold keptShapes (keptRows 10 11) (keptRows 11 10) ∧
    OrderTold (ownedShapes "Own.All") (ownedRows "Own.All" [(.i32 10, .null), (.null, .i32 10)])
      (ownedRows "Own.All" [(.null, .i32 10), (.i32 10, .null)]) := by
  constructor
  · have hdiffer : ¬(keptValue 10).Reordered (keptValue 11) := by
      intro h
      obtain ⟨_, hpet⟩ := h.of_singletons.of_records
      cases hpet.of_records.1.of_records.1
    exact orderTold_of_values (Compiler.exists_compiled (by decide +kernel)) hdiffer
  · have hdiffer : ¬(mixedValue (.i32 10) .null).Reordered (mixedValue .null (.i32 10)) := by
      intro h
      obtain ⟨_, hmembers⟩ := h.of_singletons.of_records
      cases hmembers.of_records.1.of_singletons.of_records.1
    exact orderTold_of_values (Compiler.exists_compiled (by decide +kernel)) hdiffer

end ShapeSql
