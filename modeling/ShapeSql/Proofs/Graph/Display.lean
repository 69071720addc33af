import ShapeSql.Proofs.Graph.Places
import ShapeSql.Proofs.Value.Identity

/-!
What the fields of an output show of a forest: a scalar the cell of its column, a field with a shape the
collection of the level that its place has, or, at an embedded place, more of the same member. A forest
shows one value.
-/

namespace ShapeSql

mutual

/-- The trees of the places that a tree shows first. -/
def firsts : RelationTree → List RelationTree
  | .node r kids => if r.isTransparent then firstsAll kids else [.node r kids]

def firstsAll : List RelationTree → List RelationTree
  | [] => []
  | t :: ts => firsts t ++ firstsAll ts

end

theorem mem_firstsAll {ts : List RelationTree} {t shown : RelationTree} (ht : t ∈ ts)
    (h : shown ∈ firsts t) : shown ∈ firstsAll ts := by
  induction ts with
  | nil => cases ht
  | cons first rest ih =>
    rw [firstsAll]
    rcases List.mem_cons.mp ht with rfl | ht
    · exact List.mem_append_left _ h
    · exact List.mem_append_right _ (ih ht)

theorem Shows.mem_firsts {t shown : RelationTree} (h : Shows t shown) : shown ∈ firsts t := by
  induction h with
  | place hplace =>
    rw [firsts, if_neg (Bool.eq_false_iff.mp hplace)]
    exact List.mem_singleton.mpr rfl
  | through hthrough ht _ ih =>
    rw [firsts, if_pos hthrough]
    exact mem_firstsAll ht ih

mutual

theorem shows_of_mem_firsts : ∀ (t : RelationTree) {shown : RelationTree}, shown ∈ firsts t →
    Shows t shown
  | .node r kids, shown, h => by
    rw [firsts] at h
    split at h
    · rename_i hthrough
      obtain ⟨t, ht, hshows⟩ := shows_of_mem_firstsAll kids h
      exact .through hthrough ht hshows
    · rename_i hplace
      rw [List.mem_singleton.mp h]
      exact .place (Bool.eq_false_iff.mpr hplace)

theorem shows_of_mem_firstsAll : ∀ (ts : List RelationTree) {shown : RelationTree},
    shown ∈ firstsAll ts → ∃ t ∈ ts, Shows t shown
  | t :: ts, shown, h => by
    rw [firstsAll] at h
    rcases List.mem_append.mp h with h | h
    · exact ⟨t, List.mem_cons_self, shows_of_mem_firsts t h⟩
    · obtain ⟨other, hother, hshows⟩ := shows_of_mem_firstsAll ts h
      exact ⟨other, List.mem_cons_of_mem _ hother, hshows⟩

end

/-- Where fields stand: a place with what is below it, in the level of the place at `owner`. -/
structure Spot where
  levels : LevelTree
  owner : Path
  place : Relation
  trees : List RelationTree

namespace Spot

/-- A place at its own level. -/
def ofTree (levels : LevelTree) (t : RelationTree) : Spot := ⟨levels, t.label.path, t.label, t.children⟩

/-- A place that is embedded at the level. -/
def inset (spot : Spot) (t : RelationTree) : Spot := { spot with place := t.label, trees := t.children }

/-- The value of a member in the result column of the column that the field resolves to. -/
def Holds (r : Resolver) (spot : Spot) (m : Member) (field : Field) (value : Value) : Prop :=
  ∃ column ∈ (r.scalarColumn (r.schema.table spot.place.table) field).toOption,
    ∃ c ∈ spot.place.columns, c.name = field.name ∧ c.column = column.id ∧
      ∃ cell ∈ (spot.levels.label.columns.map LevelColumn.source).zip m.cells,
        cell = (spot.place.columnAlias c, value)

instance (r : Resolver) (spot : Spot) (m : Member) (field : Field) (value : Value) :
    Decidable (spot.Holds r m field value) :=
  inferInstanceAs (Decidable (∃ column ∈ Except.toOption _, ∃ c ∈ _, _ ∧ _ ∧ ∃ cell ∈ List.zip _ _, _))

end Spot

/-- A collection is shown as the list of its members in their order, or, where one is asked for, as the
first one, and as null where there is none. -/
def Forest.ShownAs (shows : Member → Value → Prop) (isList : Bool) (forest : Forest) (value : Value) :
    Prop :=
  if isList then ∃ items ∈ value.list?, List.Forall₂ shows forest items
  else match forest with
    | [] => value = .null
    | m :: _ => shows m value

instance (shows : Member → Value → Prop) [∀ m value, Decidable (shows m value)] (isList : Bool)
    (forest : Forest) (value : Value) : Decidable (forest.ShownAs shows isList value) :=
  match isList, forest with
  | true, _ => inferInstanceAs (Decidable (∃ items ∈ value.list?, List.Forall₂ shows _ items))
  | false, [] => inferInstanceAs (Decidable (value = .null))
  | false, m :: _ => inferInstanceAs (Decidable (shows m value))

/-- A field with a shape shows its place. An embedded shape is shown of the same member, as null where it
has no values; a place at a level of its own shows the collection that the member has there. -/
def Spot.ShowsPlace (shows : Spot → Member → Record → Prop) (spot : Spot) (m : Member) (field : Field)
    (names : List String) (value : Value) : Prop :=
  ∃ t ∈ firstsAll spot.trees, t.label.path = field.path ∧
    if t.label.isEmbedded then
      if value = .null then shows (spot.inset t) m (names.map fun name => (name, .null))
      else ∃ entries ∈ value.record?, Record.isAllNull entries = false ∧ shows (spot.inset t) m entries
    else ∃ below ∈ spot.levels.children.zip m.nested,
      below.1.label.relative = t.label.path.relativeTo spot.owner ∧
        below.2.ShownAs (fun inner item => ∃ entries ∈ item.record?,
          shows (.ofTree below.1 t) inner entries) field.isList value

instance (shows : Spot → Member → Record → Prop) [∀ spot m entries, Decidable (shows spot m entries)]
    (spot : Spot) (m : Member) (field : Field) (names : List String) (value : Value) :
    Decidable (spot.ShowsPlace shows m field names value) :=
  inferInstanceAs (Decidable (∃ t ∈ firstsAll spot.trees, _ ∧ if t.label.isEmbedded then
    if value = .null then _ else ∃ entries ∈ value.record?, _ ∧ _
    else ∃ below ∈ List.zip _ _, _ ∧ Forest.ShownAs _ _ _ _))

mutual

/-- What a field shows of a member. A field that closes a cycle shows nothing. -/
def Displays (r : Resolver) (spot : Spot) (m : Member) : FieldTree → Value → Prop
  | .node field kids, value =>
    if field.cyclic then value = if field.isList then .list [] else .null
    else if field.isScalar then spot.Holds r m field value
    else spot.ShowsPlace (fun inner m entries => DisplaysAll r inner m kids entries) m field
      (FieldTree.shownNames kids) value

/-- An entry for each field that is not left out, in order, with what the field shows. -/
def DisplaysAll (r : Resolver) (spot : Spot) (m : Member) : List FieldTree → Record → Prop
  | [], entries => entries = []
  | t :: ts, entries =>
    if t.label.directives.exclude then DisplaysAll r spot m ts entries
    else match entries with
      | [] => False
      | (name, value) :: rest =>
        name = t.label.name ∧ Displays r spot m t value ∧ DisplaysAll r spot m ts rest

end

mutual

def decidableDisplays (r : Resolver) : (t : FieldTree) → (spot : Spot) → (m : Member) →
    (value : Value) → Decidable (Displays r spot m t value)
  | .node field kids, spot, m, value =>
    have : ∀ spot m entries, Decidable (DisplaysAll r spot m kids entries) := decidableDisplaysAll r kids
    inferInstanceAs (Decidable (if field.cyclic then value = _
      else if field.isScalar then spot.Holds r m field value
      else spot.ShowsPlace (fun inner m entries => DisplaysAll r inner m kids entries) m field _ value))

def decidableDisplaysAll (r : Resolver) : (ts : List FieldTree) → (spot : Spot) → (m : Member) →
    (entries : Record) → Decidable (DisplaysAll r spot m ts entries)
  | [], _, _, entries => inferInstanceAs (Decidable (entries = []))
  | t :: ts, spot, m, entries =>
    have := decidableDisplays r t spot m
    have := decidableDisplaysAll r ts spot m
    match entries with
    | [] => inferInstanceAs (Decidable (if t.label.directives.exclude then _ else False))
    | (name, value) :: rest => inferInstanceAs (Decidable (if t.label.directives.exclude then
        DisplaysAll r spot m ts ((name, value) :: rest)
      else name = _ ∧ Displays r spot m t value ∧ DisplaysAll r spot m ts rest))

end

section Entries

variable {r : Resolver} {spot : Spot} {m : Member} {t : FieldTree} {ts : List FieldTree}

theorem displaysAll_of_exclude (h : t.label.directives.exclude = true) {entries : Record} :
    DisplaysAll r spot m (t :: ts) entries ↔ DisplaysAll r spot m ts entries := by
  rw [DisplaysAll.eq_def]
  simp only [h, ↓reduceIte]

theorem displaysAll_cons (h : t.label.directives.exclude = false) {entries : Record} :
    DisplaysAll r spot m (t :: ts) entries ↔ ∃ value rest, entries = (t.label.name, value) :: rest ∧
      Displays r spot m t value ∧ DisplaysAll r spot m ts rest := by
  rw [DisplaysAll.eq_def]
  simp only [h, Bool.false_eq_true, ↓reduceIte]
  cases entries with
  | nil => exact ⟨False.elim, fun ⟨_, _, hnil, _⟩ => nomatch hnil⟩
  | cons entry rest =>
    constructor
    · rintro ⟨hname, hvalue, hrest⟩
      exact ⟨_, rest, hname ▸ rfl, hvalue, hrest⟩
    · rintro ⟨value, others, heq, hvalue, hrest⟩
      cases heq
      exact ⟨rfl, hvalue, hrest⟩

end Entries

/-- A member is shown as a record of the fields of the output. -/
def Member.ShownBy (r : Resolver) (spot : Spot) (output : FieldTree) (m : Member) (value : Value) : Prop :=
  ∃ entries ∈ value.record?, DisplaysAll r spot m output.children entries

instance (r : Resolver) (spot : Spot) (output : FieldTree) (m : Member) (value : Value) :
    Decidable (m.ShownBy r spot output value) :=
  have := decidableDisplaysAll r output.children spot m
  inferInstanceAs (Decidable (∃ entries ∈ value.record?, _))

namespace LevelTree

theorem Apart.of_mem : ∀ {ts : List LevelTree}, ApartAll ts → ∀ {t : LevelTree}, t ∈ ts → t.Apart
  | _ :: _, ⟨hfirst, hrest⟩, t, ht => by
    rcases List.mem_cons.mp ht with rfl | ht
    · exact hfirst
    · exact of_mem hrest ht

/-- A level whose subtree tells columns and ways apart. -/
structure Clear (levels : LevelTree) : Prop where
  sound : levels.Sound
  apart : levels.Apart
  sources : levels.sources.Nodup

theorem Clear.ways {levels : LevelTree} (h : levels.Clear) :
    (levels.children.map fun t => t.label.way).Nodup := by
  obtain ⟨level, kids⟩ := levels
  exact h.apart.1

theorem Clear.child {levels below : LevelTree} (h : levels.Clear) (hbelow : below ∈ levels.children) :
    below.Clear := by
  obtain ⟨level, kids⟩ := levels
  refine ⟨fun other hother => h.sound other (List.mem_cons_of_mem _ ?_), Apart.of_mem h.apart.2 hbelow, ?_⟩
  · rw [Tree.preorderAll_eq_flatMap]
    exact List.mem_flatMap.mpr ⟨below, hbelow, hother⟩
  · have hsources := h.sources
    rw [sources_node] at hsources
    exact (List.nodup_flatMap.mp hsources.of_append_right).1 below hbelow

end LevelTree

section Unique

/-- Among pairs of items told apart by a key, there is one pair with a key. -/
theorem eq_of_mem_zip {α β κ : Type} {key : α → κ} {items : List α} {others : List β}
    (h : (items.map key).Nodup) {a a' : α} {b b' : β} (ha : (a, b) ∈ items.zip others)
    (ha' : (a', b') ∈ items.zip others) (hkey : key a = key a') : (a, b) = (a', b') := by
  obtain ⟨i, hi, heq⟩ := List.mem_iff_getElem.mp ha
  obtain ⟨j, hj, heq'⟩ := List.mem_iff_getElem.mp ha'
  have hsame : i = j := by
    rw [List.getElem_zip, Prod.mk.injEq] at heq heq'
    rw [List.length_zip] at hi hj
    have hi' : i < (items.map key).length := by rw [List.length_map]; omega
    have hj' : j < (items.map key).length := by rw [List.length_map]; omega
    have hkeys : (items.map key)[i] = (items.map key)[j] := by
      rw [List.getElem_map, List.getElem_map, heq.1, heq'.1, hkey]
    exact h.getElem_inj_iff.mp hkeys
  subst hsame
  exact heq.symm.trans heq'

theorem Forest.ShownAs.unique {shows shows' : Member → Value → Prop} {forest : Forest}
    (hshows : ∀ m ∈ forest, ∀ value other, shows m value → shows' m other → value = other) {isList : Bool}
    {value other : Value} (h : forest.ShownAs shows isList value)
    (hother : forest.ShownAs shows' isList other) : value = other := by
  cases isList with
  | true =>
    obtain ⟨items, hitems, hall⟩ := h
    obtain ⟨items', hitems', hall'⟩ := hother
    have hsame : items = items' := by
      clear hitems hitems'
      induction hall generalizing items' with
      | nil => exact (List.forall₂_nil_left_iff.mp hall').symm
      | cons hfirst _ ih =>
        obtain ⟨_, _, hfirst', hrest', rfl⟩ := List.forall₂_cons_left_iff.mp hall'
        rw [List.forall_mem_cons] at hshows
        rw [hshows.1 _ _ hfirst hfirst', ih hshows.2 _ hrest']
    cases value with
    | list own =>
      cases other with
      | list others =>
        cases hitems
        cases hitems'
        rw [hsame]
      | _ => cases hitems'
    | _ => cases hitems
  | false =>
    cases forest with
    | nil => exact h.trans hother.symm
    | cons m rest => exact hshows m List.mem_cons_self value other h hother

theorem Value.eq_of_record? {value other : Value} {entries : Record} (h : entries ∈ value.record?)
    (hother : entries ∈ other.record?) : value = other := by
  have hrecord : ∀ {v : Value}, entries ∈ v.record? → v = .record entries := by
    intro v hv
    cases v with
    | record own =>
      cases hv
      rfl
    | _ => cases hv
  rw [hrecord h, hrecord hother]

/-- An embedded shape is a record of its entries, and null where they all are. -/
theorem exists_entries {shows : Record → Prop} {names : List String} {value : Value}
    (h : if value = .null then shows (names.map fun name => (name, .null))
      else ∃ entries ∈ value.record?, Record.isAllNull entries = false ∧ shows entries) :
    ∃ entries, shows entries ∧ value = if Record.isAllNull entries then .null else .record entries := by
  split at h
  · rename_i hnull
    refine ⟨_, h, ?_⟩
    rw [if_pos, hnull]
    rw [Record.isAllNull, List.all_map, List.all_eq_true]
    exact fun _ _ => rfl
  · obtain ⟨entries, hentries, hsome, hshows⟩ := h
    refine ⟨entries, hshows, ?_⟩
    rw [if_neg (Bool.eq_false_iff.mp hsome)]
    exact Value.eq_of_record? hentries rfl

/-- The level below that a collection has is found by its way. -/
theorem LevelTree.Clear.child?_eq {levels below child : LevelTree} (hclear : levels.Clear)
    {m : Member} {forest : Forest} (hmem : (below, forest) ∈ levels.children.zip m.nested) {way : Path}
    (hway : below.label.relative = way) (hchild : levels.child? way = some child) : below = child := by
  have hfound := List.find?_some hchild
  refine List.inj_on_of_nodup_map hclear.ways (List.of_mem_zip hmem).1
    (List.mem_of_find?_eq_some hchild) ?_
  rw [Level.way, Level.way, hway, ← beq_iff_eq.mp hfound]

variable {r : Resolver} {levels : LevelTree}

mutual

/-- A field shows one value of a member, wherever at its path it is looked for. -/
theorem displays_unique : ∀ (t : FieldTree) {levels : LevelTree} {owner place owner' place' : Relation}
    {whole trees whole' trees' : List RelationTree} {base base' : Path} {m : Member} {value other : Value},
    LevelTree.At r.schema levels owner whole base place trees →
    LevelTree.At r.schema levels owner' whole' base' place' trees' →
    owner'.path = owner.path → place'.path = place.path → levels.Clear →
    t.Rooted (place.path.join t.label.name) →
    Displays r ⟨levels, owner.path, place, trees⟩ m t value →
    Displays r ⟨levels, owner'.path, place', trees'⟩ m t other → value = other
  | .node field kids, levels, owner, place, owner', place', whole, trees, whole', trees', base, base', m,
      value, other, hat, hat', howner, hplace, hclear, hrooted, h, hother => by
    rw [Displays] at h hother
    by_cases hcyclic : field.cyclic = true
    · rw [if_pos hcyclic] at h hother
      rw [h, hother]
    rw [if_neg hcyclic] at h hother
    by_cases hscalar : field.isScalar = true
    · rw [if_pos hscalar] at h hother
      obtain ⟨_, _, c, _, hname, _, _, hcell, rfl⟩ := h
      obtain ⟨_, _, c', _, hname', _, _, hcell', rfl⟩ := hother
      have hsource : place'.columnAlias c' = place.columnAlias c := by
        rw [Relation.columnAlias, Relation.columnAlias, hplace, hname, hname']
      have hsources : (levels.label.columns.map LevelColumn.source).Nodup := by
        obtain ⟨level, below⟩ := levels
        have hsources := hclear.sources
        rw [LevelTree.sources_node] at hsources
        exact hsources.of_append_left
      have hsame := eq_of_mem_zip (by rwa [List.map_id]) hcell hcell' (congrArg id hsource.symm)
      exact (Prod.mk.inj hsame).2
    rw [if_neg hscalar] at h hother
    obtain ⟨⟨inner, below⟩, ht, hpath, h⟩ := h
    obtain ⟨⟨inner', below'⟩, ht', hpath', hother⟩ := hother
    obtain ⟨t, ht, hshows⟩ := shows_of_mem_firstsAll trees ht
    obtain ⟨t', ht', hshows'⟩ := shows_of_mem_firstsAll trees' ht'
    have hpath : inner.path = field.path := hpath
    have hpath' : inner'.path = field.path := hpath'
    have hstep : inner.path = place.path.join field.name := hpath.trans hrooted.1
    have hstep' : inner'.path = place'.path.join field.name := by
      rw [hplace]
      exact hpath'.trans hrooted.1
    obtain rfl : base' = base := by
      have hbase := hat'.base
      rw [howner, hplace, hat.base] at hbase
      exact congrArg Path.mk (List.append_cancel_left (congrArg Path.steps hbase)).symm
    have hbelow : FieldTree.RootedAll inner.path kids := hstep ▸ hrooted.2
    have hsame : inner'.path = inner.path := hpath'.trans hpath.symm
    have h : if inner.isEmbedded then _ else _ := h
    have hother : if inner'.isEmbedded then _ else _ := hother
    cases hinner : inner.isEmbedded with
    | true =>
      obtain ⟨hchild, hspot⟩ := hat.embedded ht hshows hstep hinner
      cases hinner' : inner'.isEmbedded with
      | true =>
        obtain ⟨_, hspot'⟩ := hat'.embedded ht' hshows' hstep' hinner'
        rw [if_pos hinner] at h
        rw [if_pos hinner'] at hother
        obtain ⟨entries, hentries, rfl⟩ := exists_entries h
        obtain ⟨entries', hentries', rfl⟩ := exists_entries hother
        rw [displaysAll_unique kids hspot hspot' howner hsame hclear hbelow hentries hentries']
      | false =>
        obtain ⟨child, hchild', _⟩ := hat'.bound ht' hshows' hstep' hinner'
        cases hchild.symm.trans hchild'
    | false =>
      obtain ⟨child, hchild, hspot⟩ := hat.bound ht hshows hstep hinner
      cases hinner' : inner'.isEmbedded with
      | true =>
        obtain ⟨hchild', _⟩ := hat'.embedded ht' hshows' hstep' hinner'
        cases hchild.symm.trans hchild'
      | false =>
        obtain ⟨child', hchild', hspot'⟩ := hat'.bound ht' hshows' hstep' hinner'
        cases hchild.symm.trans hchild'
        rw [if_neg (Bool.eq_false_iff.mp hinner)] at h
        rw [if_neg (Bool.eq_false_iff.mp hinner')] at hother
        obtain ⟨⟨_, forest⟩, hmem, hway, hshown⟩ := h
        obtain ⟨⟨_, forest'⟩, hmem', hway', hshown'⟩ := hother
        obtain rfl := hclear.child?_eq hmem (hway.trans (hat.relativeTo hstep)) hchild
        obtain rfl := hclear.child?_eq hmem' (hway'.trans (hat'.relativeTo hstep')) hchild
        obtain rfl : forest = forest' := (Prod.mk.inj (eq_of_mem_zip hclear.ways hmem hmem' rfl)).2
        have hdeeper := hclear.child (List.of_mem_zip hmem).1
        refine hshown.unique (fun member _ item item' hitem hitem' => ?_) hshown'
        obtain ⟨entries, hentries, hall⟩ := hitem
        obtain ⟨entries', hentries', hall'⟩ := hitem'
        rw [← displaysAll_unique kids hspot hspot' hsame hsame hdeeper hbelow hall hall'] at hentries'
        exact Value.eq_of_record? hentries hentries'

theorem displaysAll_unique : ∀ (ts : List FieldTree) {levels : LevelTree}
    {owner place owner' place' : Relation} {whole trees whole' trees' : List RelationTree}
    {base base' : Path} {m : Member} {entries others : Record},
    LevelTree.At r.schema levels owner whole base place trees →
    LevelTree.At r.schema levels owner' whole' base' place' trees' →
    owner'.path = owner.path → place'.path = place.path → levels.Clear →
    FieldTree.RootedAll place.path ts →
    DisplaysAll r ⟨levels, owner.path, place, trees⟩ m ts entries →
    DisplaysAll r ⟨levels, owner'.path, place', trees'⟩ m ts others → entries = others
  | [], _, _, _, _, _, _, _, _, _, _, _, _, _, _, _, _, _, _, _, _, h, hother => h.trans hother.symm
  | t :: ts, levels, owner, place, owner', place', whole, trees, whole', trees', base, base', m, entries,
      others, hat, hat', howner, hplace, hclear, ⟨hrooted, hrest⟩, h, hother => by
    cases hexclude : t.label.directives.exclude with
    | true =>
      exact displaysAll_unique ts hat hat' howner hplace hclear hrest
        ((displaysAll_of_exclude hexclude).mp h) ((displaysAll_of_exclude hexclude).mp hother)
    | false =>
      obtain ⟨value, rest, rfl, hvalue, htail⟩ := (displaysAll_cons hexclude).mp h
      obtain ⟨value', rest', rfl, hvalue', htail'⟩ := (displaysAll_cons hexclude).mp hother
      rw [displays_unique t hat hat' howner hplace hclear hrooted hvalue hvalue',
        displaysAll_unique ts hat hat' howner hplace hclear hrest htail htail']

end

end Unique

end ShapeSql
