import Mathlib.Data.List.Induction
import ShapeSql.Graph.Basic
import ShapeSql.Proofs.Value.Identity

/-!
What a result set stands for, level by level: its rows grouped by key. Materializing walks the rows
once and changes nested collections in place; here it is compared with grouping, which takes the rows
of one entity apart before it looks at the levels below. The two agree as long as no two sibling
levels are reached by ways that print alike, for collections are kept by the printed way.
-/

namespace ShapeSql

/-- The first of the items of each key, in order. -/
def firstsBy [DecidableEq κ] (key : α → κ) (items : List α) : List α :=
  items.eraseDupsBy fun a b => decide (key a = key b)

/-- A row of a result set and its position. -/
abbrev NumberedRow := List Value × Nat

namespace Level

/-- The name under which an entity keeps what is nested in it at this level. -/
def way (level : Level) : String := level.relative.display

/-- The key that a row has at this level. -/
def rowKey (level : Level) (columns : List String) (row : NumberedRow) : RowKey :=
  level.keyOf (level.values columns row.1)

/-- Whether a row shows an entity at this level: every row at the root, elsewhere a row whose cells
of this level are not all null. -/
def shows (level : Level) (columns : List String) (isRoot : Bool) (row : NumberedRow) : Bool :=
  isRoot || !Record.isAllNull (level.values columns row.1)

/-- What a row stands for at this level, with what is nested in it. -/
def entity (level : Level) (columns : List String) (row : NumberedRow) (nested : Nested) : Entity :=
  .node (level.rowKey columns row) row.2 (level.values columns row.1) nested

@[simp] theorem key_entity (level : Level) (columns : List String) (row : NumberedRow)
    (nested : Nested) : (level.entity columns row nested).key = level.rowKey columns row := rfl

/-- The first row of each key, in order. -/
def firsts (level : Level) (columns : List String) (rows : List NumberedRow) : List NumberedRow :=
  firstsBy (level.rowKey columns) rows

/-- The rows with the key of the given one. -/
def sharing (level : Level) (columns : List String) (first : NumberedRow)
    (rows : List NumberedRow) : List NumberedRow :=
  rows.filter fun row => decide (level.rowKey columns row = level.rowKey columns first)

end Level

namespace LevelTree

mutual

/-- The rows grouped by their key at this level, the rows of each group in turn at the levels below.
An entity has the values of the first row of its group. -/
def grouped (columns : List String) (isRoot : Bool) : LevelTree → List NumberedRow → Entities
  | .node level kids, rows =>
    let present := rows.filter (level.shows columns isRoot)
    (level.firsts columns present).map fun first =>
      level.entity columns first (groupedBelow columns kids (level.sharing columns first present))

/-- Each level below with the groups that it makes of the same rows. -/
def groupedBelow (columns : List String) : List LevelTree → List NumberedRow → Nested
  | [], _ => []
  | t :: ts, rows => (t.label.way, grouped columns false t rows) :: groupedBelow columns ts rows

end

mutual

/-- No two sibling levels are reached by ways that print alike. -/
def Apart : LevelTree → Prop
  | .node _ kids => (kids.map fun t => t.label.way).Nodup ∧ ApartAll kids

def ApartAll : List LevelTree → Prop
  | [] => True
  | t :: ts => t.Apart ∧ ApartAll ts

end

mutual

def decidableApart : (t : LevelTree) → Decidable t.Apart
  | .node _ kids =>
    have := decidableApartAll kids
    inferInstanceAs (Decidable (_ ∧ _))

def decidableApartAll : (ts : List LevelTree) → Decidable (ApartAll ts)
  | [] => inferInstanceAs (Decidable True)
  | t :: ts =>
    have := decidableApart t
    have := decidableApartAll ts
    inferInstanceAs (Decidable (_ ∧ _))

end

instance : DecidablePred Apart := decidableApart

/-- Every row has a plain key at every level. -/
def PlainKeys (levels : LevelTree) (columns : List String) (rows : List NumberedRow) : Prop :=
  ∀ level ∈ levels.preorder, ∀ row ∈ rows, (level.rowKey columns row).IsPlain

end LevelTree

section Firsts

variable {κ : Type} [DecidableEq κ] {α : Type} (key : α → κ)

theorem firstsBy_cons (a : α) (as : List α) :
    firstsBy key (a :: as) = a :: firstsBy key (as.filter fun b => decide (key b ≠ key a)) := by
  simp only [firstsBy, List.eraseDupsBy_cons, decide_not, decide_eq_false_iff_not]

/-- A further item is the first of its key exactly if no item before it has that key. -/
theorem firstsBy_append_singleton (as : List α) (b : α) :
    firstsBy key (as ++ [b]) =
      if key b ∈ as.map key then firstsBy key as else firstsBy key as ++ [b] := by
  match as with
  | [] => simp [firstsBy, List.eraseDupsBy_cons]
  | a :: as =>
    rw [List.cons_append, firstsBy_cons, firstsBy_cons, List.filter_append]
    by_cases hsame : key b = key a
    · simp [hsame]
    · have hlast : [b].filter (fun c => decide (key c ≠ key a)) = [b] := by simp [hsame]
      have hmem : key b ∈ (as.filter fun c => decide (key c ≠ key a)).map key ↔
          key b ∈ (a :: as).map key := by
        simp only [List.mem_map, List.mem_filter, List.mem_cons, decide_eq_true_eq]
        constructor
        · rintro ⟨c, ⟨hc, _⟩, hkey⟩
          exact ⟨c, Or.inr hc, hkey⟩
        · rintro ⟨c, rfl | hc, hkey⟩
          · exact absurd hkey.symm hsame
          · exact ⟨c, ⟨hc, fun h => hsame (hkey.symm.trans h)⟩, hkey⟩
      rw [hlast, firstsBy_append_singleton]
      simp only [hmem]
      split
      · rfl
      · rfl
termination_by as.length
decreasing_by
  have := List.length_filter_le (fun c => decide (key c ≠ key a)) as
  simp only [List.length_cons]
  omega

-- The lists below grow at the end, as the rows of a result set do: the last item is a first or not.

theorem mem_of_mem_firstsBy {as : List α} {a : α} (h : a ∈ firstsBy key as) : a ∈ as := by
  induction as using List.reverseRecOn with
  | nil => simp [firstsBy] at h
  | append_singleton as b ih =>
    rw [firstsBy_append_singleton] at h
    split at h
    · exact List.mem_append_left _ (ih h)
    · rcases List.mem_append.mp h with hold | hnew
      · exact List.mem_append_left _ (ih hold)
      · exact List.mem_append_right _ hnew

theorem mem_map_firstsBy (as : List α) (k : κ) :
    k ∈ (firstsBy key as).map key ↔ k ∈ as.map key := by
  induction as using List.reverseRecOn with
  | nil => simp [firstsBy]
  | append_singleton as b ih =>
    rw [firstsBy_append_singleton]
    split
    · rename_i hseen
      rw [ih, List.map_append, List.mem_append, List.map_singleton, List.mem_singleton]
      exact ⟨Or.inl, fun h => h.elim id fun hb => hb ▸ hseen⟩
    · simp only [List.map_append, List.mem_append, ih]

/-- No two of them share a key. -/
theorem nodup_map_firstsBy (as : List α) : ((firstsBy key as).map key).Nodup := by
  induction as using List.reverseRecOn with
  | nil => simp [firstsBy]
  | append_singleton as b ih =>
    rw [firstsBy_append_singleton]
    split
    · exact ih
    · rename_i hnew
      rw [List.map_append, List.map_singleton]
      apply List.nodup_append.mpr
      refine ⟨ih, by simp, ?_⟩
      intro k hk l hl he
      rw [List.mem_singleton.mp hl] at he
      exact hnew ((mem_map_firstsBy key as _).mp (he ▸ hk))

end Firsts

namespace Nested

theorem update_present (f : Entities → Entities) (way : String) (pre post : Nested)
    (entities : Entities) (h : way ∉ pre.map Prod.fst) :
    update f way (pre ++ (way, entities) :: post) = pre ++ (way, f entities) :: post := by
  induction pre with
  | nil => simp [update]
  | cons entry pre ih =>
    have hne : entry.1 ≠ way := fun he => h (by simp [he])
    have hrest : way ∉ pre.map Prod.fst := fun hm => h (by simp [hm])
    simp [update, hne, ih hrest]

theorem update_absent (f : Entities → Entities) (way : String) (pre : Nested)
    (h : way ∉ pre.map Prod.fst) : update f way pre = pre ++ [(way, f [])] := by
  induction pre with
  | nil => rfl
  | cons entry pre ih =>
    have hne : entry.1 ≠ way := fun he => h (by simp [he])
    have hrest : way ∉ pre.map Prod.fst := fun hm => h (by simp [hm])
    simp [update, hne, ih hrest]

end Nested

namespace Entities

/-- Among entities of distinct plain keys an upsert changes the one with the key, or adds it. -/
theorem upsert_map (fresh : Entity) (f : Entity → Entity) (entity : α → Entity) (items : List α)
    (plain : ∀ a ∈ items, (entity a).key.IsPlain)
    (distinct : (items.map fun a => (entity a).key).Nodup) :
    upsert fresh f (items.map entity) =
      if fresh.key ∈ items.map fun a => (entity a).key then
        items.map fun a => if (entity a).key = fresh.key then f (entity a) else entity a
      else items.map entity ++ [f fresh] := by
  induction items with
  | nil => simp [upsert]
  | cons a items ih =>
    rw [List.map_cons, List.nodup_cons] at distinct
    have hid := RowKey.identifies_iff_of_isPlain (entity a).key fresh.key
      (plain a List.mem_cons_self)
    have htail := ih (fun b hb => plain b (List.mem_cons_of_mem a hb)) distinct.2
    by_cases hkey : (entity a).key = fresh.key
    · have hlater : ∀ b ∈ items, (entity b).key ≠ fresh.key := by
        intro b hb he
        exact distinct.1 (List.mem_map.mpr ⟨b, hb, he.trans hkey.symm⟩)
      have hrest : (items.map fun b => if (entity b).key = fresh.key then f (entity b)
          else entity b) = items.map entity := by
        apply List.map_congr_left
        intro b hb
        rw [if_neg (hlater b hb)]
      rw [List.map_cons, upsert, if_pos (hid.mpr hkey), List.map_cons, List.map_cons,
        if_pos (List.mem_cons.mpr (Or.inl hkey.symm)), if_pos hkey, hrest]
    · have hid' : (entity a).key.identifies fresh.key = false := by
        rw [Bool.eq_false_iff]
        exact fun h => hkey (hid.mp h)
      have hmem : fresh.key ∈ ((a :: items).map fun b => (entity b).key) ↔
          fresh.key ∈ items.map fun b => (entity b).key := by
        rw [List.map_cons, List.mem_cons]
        exact ⟨fun h => h.elim (fun he => absurd he.symm hkey) id, Or.inr⟩
      simp only [hmem]
      rw [List.map_cons, upsert, if_neg (by simp [hid']), htail, List.map_cons, if_neg hkey]
      split
      · rfl
      · rfl

end Entities

namespace LevelTree

theorem grouped_nil (columns : List String) (isRoot : Bool) (t : LevelTree) :
    t.grouped columns isRoot [] = [] := by
  cases t
  simp [grouped, Level.firsts, firstsBy]

/-- The entity of the rows that share the key of `first`. -/
def groupOf (columns : List String) (level : Level) (kids : List LevelTree)
    (present : List NumberedRow) (first : NumberedRow) : Entity :=
  level.entity columns first (groupedBelow columns kids (level.sharing columns first present))

@[simp] theorem key_groupOf (columns : List String) (level : Level) (kids : List LevelTree)
    (present : List NumberedRow) (first : NumberedRow) :
    (groupOf columns level kids present first).key = level.rowKey columns first := rfl

theorem grouped_node (columns : List String) (isRoot : Bool) (level : Level)
    (kids : List LevelTree) (rows : List NumberedRow) :
    grouped columns isRoot (.node level kids) rows =
      (level.firsts columns (rows.filter (level.shows columns isRoot))).map
        (groupOf columns level kids (rows.filter (level.shows columns isRoot))) := by
  simp only [grouped]
  rfl

theorem addRow_of_shows (columns : List String) (isRoot : Bool) (row : NumberedRow) (level : Level)
    (kids : List LevelTree) (entities : Entities) (h : level.shows columns isRoot row = true) :
    addRow columns row.2 row.1 isRoot (.node level kids) entities =
      Entities.upsert (level.entity columns row [])
        (Entity.mapNested (addRowBelow columns row.2 row.1 kids)) entities := by
  have hskip : ¬(!isRoot && Record.isAllNull (level.values columns row.1)) = true := by
    cases isRoot with
    | true => simp
    | false => simpa [Level.shows] using h
  simp only [addRow, if_neg hskip]
  rfl

theorem addRow_of_not_shows (columns : List String) (isRoot : Bool) (row : NumberedRow)
    (level : Level) (kids : List LevelTree) (entities : Entities)
    (h : ¬level.shows columns isRoot row = true) :
    addRow columns row.2 row.1 isRoot (.node level kids) entities = entities := by
  have hskip : (!isRoot && Record.isAllNull (level.values columns row.1)) = true := by
    cases isRoot with
    | true => simp [Level.shows] at h
    | false => simpa [Level.shows] using h
  simp only [addRow, if_pos hskip]

theorem sharing_append_singleton (level : Level) (columns : List String) (first row : NumberedRow)
    (rows : List NumberedRow) :
    level.sharing columns first (rows ++ [row]) =
      if level.rowKey columns first = level.rowKey columns row then
        level.sharing columns first rows ++ [row]
      else level.sharing columns first rows := by
  by_cases h : level.rowKey columns first = level.rowKey columns row
  · simp [Level.sharing, List.filter_append, h]
  · simp [Level.sharing, List.filter_append, h, Ne.symm h]

/-- The entities of rows that all show one at this level. -/
def groups (columns : List String) (level : Level) (kids : List LevelTree)
    (present : List NumberedRow) : Entities :=
  (level.firsts columns present).map (groupOf columns level kids present)

/-- An upsert adds a row to the groups of the rows before, given that `adds` does so one level
below. -/
theorem upsert_groups (columns : List String) (level : Level) (kids : List LevelTree)
    (row : NumberedRow) (present : List NumberedRow) (adds : Nested → Nested)
    (plain : ∀ r ∈ present, (level.rowKey columns r).IsPlain)
    (old : ∀ first ∈ present, adds (groupedBelow columns kids (level.sharing columns first present)) =
      groupedBelow columns kids (level.sharing columns first present ++ [row]))
    (fresh : adds [] = groupedBelow columns kids [row]) :
    Entities.upsert (level.entity columns row []) (Entity.mapNested adds)
        (groups columns level kids present) =
      groups columns level kids (present ++ [row]) := by
  have hfirsts : ∀ first ∈ level.firsts columns present, first ∈ present :=
    fun first hfirst => mem_of_mem_firstsBy _ hfirst
  have hplain : ∀ first ∈ level.firsts columns present,
      (groupOf columns level kids present first).key.IsPlain :=
    fun first hfirst => plain first (hfirsts first hfirst)
  have hdistinct : ((level.firsts columns present).map fun first =>
      (groupOf columns level kids present first).key).Nodup :=
    nodup_map_firstsBy (level.rowKey columns) present
  have hseen : (level.entity columns row []).key ∈ ((level.firsts columns present).map fun first =>
      (groupOf columns level kids present first).key) ↔
        level.rowKey columns row ∈ present.map (level.rowKey columns) :=
    mem_map_firstsBy (level.rowKey columns) present _
  have hextended : level.firsts columns (present ++ [row]) =
      if level.rowKey columns row ∈ present.map (level.rowKey columns) then
        level.firsts columns present
      else level.firsts columns present ++ [row] :=
    firstsBy_append_singleton (level.rowKey columns) present row
  simp only [groups]
  rw [Entities.upsert_map _ _ _ _ hplain hdistinct, hextended]
  simp only [hseen]
  split
  · apply List.map_congr_left
    intro first hfirst
    by_cases hkey : level.rowKey columns first = level.rowKey columns row
    · rw [key_groupOf, Level.key_entity, if_pos hkey, groupOf, groupOf, sharing_append_singleton,
        if_pos hkey, ← old first (hfirsts first hfirst)]
      rfl
    · rw [key_groupOf, Level.key_entity, if_neg hkey, groupOf, groupOf, sharing_append_singleton,
        if_neg hkey]
  · rename_i hnew
    have hother : ∀ r ∈ present, level.rowKey columns r ≠ level.rowKey columns row :=
      fun r hr he => hnew (List.mem_map.mpr ⟨r, hr, he⟩)
    have halone : level.sharing columns row (present ++ [row]) = [row] := by
      rw [sharing_append_singleton, if_pos rfl]
      simp only [Level.sharing]
      rw [List.filter_eq_nil_iff.mpr fun r hr => by simp [hother r hr], List.nil_append]
    have hlast : Entity.mapNested adds (level.entity columns row []) =
        groupOf columns level kids (present ++ [row]) row := by
      rw [groupOf, halone, ← fresh]
      rfl
    have hold : (level.firsts columns present).map (groupOf columns level kids present) =
        (level.firsts columns present).map (groupOf columns level kids (present ++ [row])) := by
      apply List.map_congr_left
      intro first hfirst
      simp only [groupOf, sharing_append_singleton]
      rw [if_neg (hother first (hfirsts first hfirst))]
    rw [List.map_append, List.map_singleton, hlast, hold]

mutual

/-- Adding a row to the groups of the rows before gives the groups of all rows. -/
theorem addRow_grouped (columns : List String) (isRoot : Bool) (row : NumberedRow) :
    ∀ (t : LevelTree) (rows : List NumberedRow), t.Apart → t.PlainKeys columns (rows ++ [row]) →
      t.addRow columns row.2 row.1 isRoot (t.grouped columns isRoot rows) =
        t.grouped columns isRoot (rows ++ [row])
  | .node level kids, rows, apart, plain => by
    by_cases hshows : level.shows columns isRoot row = true
    · obtain ⟨present, hdef⟩ : ∃ present, present = rows.filter (level.shows columns isRoot) := ⟨_, rfl⟩
      have hpresent : (rows ++ [row]).filter (level.shows columns isRoot) = present ++ [row] := by
        simp [List.filter_append, hshows, hdef]
      have hsub : ∀ r ∈ present, r ∈ rows ++ [row] := by
        rw [hdef]
        exact fun r hr => List.mem_append_left _ (List.mem_filter.mp hr).1
      have hkids : ∀ other ∈ Tree.preorderAll kids, ∀ r ∈ rows ++ [row],
          (other.rowKey columns r).IsPlain :=
        fun other hother => plain other (List.mem_cons_of_mem level hother)
      rw [grouped_node, grouped_node, ← hdef, hpresent, addRow_of_shows _ _ _ _ _ _ hshows]
      apply upsert_groups
      · exact fun r hr => plain level List.mem_cons_self r (hsub r hr)
      · intro first hfirst
        apply addRowBelow_grouped columns row kids _ [] apart.2 apart.1
        intro other hother r hr
        rcases List.mem_append.mp hr with hold | hlast
        · exact hkids other hother r (hsub r (List.mem_filter.mp hold).1)
        · exact hkids other hother r (List.mem_append_right _ hlast)
      · apply addRowBelow_fresh columns row kids [] apart.2 apart.1
        exact fun other hother => hkids other hother row (by simp)
    · have hrows : (rows ++ [row]).filter (level.shows columns isRoot) =
          rows.filter (level.shows columns isRoot) := by
        simp [List.filter_append, hshows]
      rw [addRow_of_not_shows _ _ _ _ _ _ hshows]
      simp only [grouped, hrows]

/-- The same for the levels below one, whatever else is nested in an entity before them. -/
theorem addRowBelow_grouped (columns : List String) (row : NumberedRow) :
    ∀ (ts : List LevelTree) (rows : List NumberedRow) (pre : Nested), ApartAll ts →
      (pre.map Prod.fst ++ ts.map fun t => t.label.way).Nodup →
      (∀ level ∈ Tree.preorderAll ts, ∀ r ∈ rows ++ [row], (level.rowKey columns r).IsPlain) →
      addRowBelow columns row.2 row.1 ts (pre ++ groupedBelow columns ts rows) =
        pre ++ groupedBelow columns ts (rows ++ [row])
  | [], rows, pre, _, _, _ => by simp [addRowBelow, groupedBelow]
  | t :: ts, rows, pre, apart, distinct, plain => by
    have hway : t.label.way ∉ pre.map Prod.fst := by
      intro h
      exact (List.nodup_append.mp distinct).2.2 _ h _ (by simp) rfl
    have hhead := addRow_grouped columns false row t rows apart.1 fun level hlevel =>
      plain level (List.mem_append_left _ hlevel)
    have htail := addRowBelow_grouped columns row ts rows
      (pre ++ [(t.label.way, t.grouped columns false (rows ++ [row]))]) apart.2
      (by simpa using distinct) fun level hlevel => plain level (List.mem_append_right _ hlevel)
    have hupdate := Nested.update_present (t.addRow columns row.2 row.1 false) t.label.way pre
      (groupedBelow columns ts rows) (t.grouped columns false rows) hway
    rw [hhead] at hupdate
    rw [groupedBelow, groupedBelow, addRowBelow, ← Level.way, hupdate]
    simpa using htail

/-- A new entity has nothing nested in it yet, not even empty collections. -/
theorem addRowBelow_fresh (columns : List String) (row : NumberedRow) :
    ∀ (ts : List LevelTree) (pre : Nested), ApartAll ts →
      (pre.map Prod.fst ++ ts.map fun t => t.label.way).Nodup →
      (∀ level ∈ Tree.preorderAll ts, (level.rowKey columns row).IsPlain) →
      addRowBelow columns row.2 row.1 ts pre = pre ++ groupedBelow columns ts [row]
  | [], pre, _, _, _ => by simp [addRowBelow, groupedBelow]
  | t :: ts, pre, apart, distinct, plain => by
    have hway : t.label.way ∉ pre.map Prod.fst := by
      intro h
      exact (List.nodup_append.mp distinct).2.2 _ h _ (by simp) rfl
    have hhead := addRow_grouped columns false row t [] apart.1 fun level hlevel r hr => by
      rw [List.mem_singleton.mp hr]
      exact plain level (List.mem_append_left _ hlevel)
    rw [grouped_nil] at hhead
    have htail := addRowBelow_fresh columns row ts
      (pre ++ [(t.label.way, t.grouped columns false [row])]) apart.2
      (by simpa using distinct) fun level hlevel => plain level (List.mem_append_right _ hlevel)
    have hupdate := Nested.update_absent (t.addRow columns row.2 row.1 false) t.label.way pre hway
    rw [hhead] at hupdate
    rw [groupedBelow, addRowBelow, ← Level.way, hupdate]
    simpa using htail

end

/-- Adding rows one after the other gives their groups. -/
theorem foldl_addRow (levels : LevelTree) (columns : List String) (numbered : List NumberedRow)
    (apart : levels.Apart) (plain : levels.PlainKeys columns numbered) :
    numbered.foldl (fun found row => levels.addRow columns row.2 row.1 true found) [] =
      levels.grouped columns true numbered := by
  -- The rows are taken in order, so the induction adds one row at the end.
  induction numbered using List.reverseRecOn with
  | nil => rw [grouped_nil, List.foldl_nil]
  | append_singleton before row ih =>
    have hbefore : levels.PlainKeys columns before :=
      fun level hlevel r hr => plain level hlevel r (List.mem_append_left _ hr)
    rw [List.foldl_append, ih hbefore]
    exact addRow_grouped columns true row levels before apart plain

/-- Materializing groups: each entity of a result set has the values of the first row with its key,
and nested in it, level by level, what the rows with that key show there. -/
theorem entities_eq_grouped (levels : LevelTree) (rows : Rows) (apart : levels.Apart)
    (plain : levels.PlainKeys rows.columns rows.rows.zipIdx) :
    levels.entities rows = levels.grouped rows.columns true rows.rows.zipIdx :=
  foldl_addRow levels rows.columns rows.rows.zipIdx apart plain

/-- People with their boss and their aide, nested under the given names. -/
def people (boss aide : String) : LevelTree :=
  .node (.ofColumns .root [⟨"Id", "Id"⟩] ["Id"])
    [.node (.ofColumns ⟨[boss]⟩ [⟨"Id", "Boss.Id"⟩] ["Id"]) [],
     .node (.ofColumns ⟨[aide]⟩ [⟨"Code", "Aide.Code"⟩] ["Code"]) []]

/-- One person twice, with two bosses and two aides. -/
def peopleRows : Rows where
  columns := ["Id", "Boss.Id", "Aide.Code"]
  rows := [[.i32 1, .i32 10, .i32 20], [.i32 1, .i32 11, .i32 21]]
  widths := by decide

theorem entities_people : (people "Boss" "Aide").Apart ∧
    (people "Boss" "Aide").PlainKeys peopleRows.columns peopleRows.rows.zipIdx ∧
    (people "Boss" "Aide").entities peopleRows =
      (people "Boss" "Aide").grouped peopleRows.columns true peopleRows.rows.zipIdx := by
  have hapart : (people "Boss" "Aide").Apart := by
    refine ⟨by decide +kernel, ⟨by simp, trivial⟩, ⟨by simp, trivial⟩, trivial⟩
  have hplain : (people "Boss" "Aide").PlainKeys peopleRows.columns peopleRows.rows.zipIdx := by
    unfold PlainKeys
    decide +kernel
  exact ⟨hapart, hplain, entities_eq_grouped _ _ hapart hplain⟩

/-- Under one name bosses and aides run together. -/
theorem entities_people_alike :
    (people "Staff" "Staff").PlainKeys peopleRows.columns peopleRows.rows.zipIdx ∧
    (people "Staff" "Staff").entities peopleRows ≠
      (people "Staff" "Staff").grouped peopleRows.columns true peopleRows.rows.zipIdx := by
  constructor
  · unfold PlainKeys
    decide +kernel
  · intro h
    have hcounts := congrArg (List.flatMap fun e => e.nested.map fun found => found.2.length) h
    revert hcounts
    decide +kernel

end LevelTree
end ShapeSql
