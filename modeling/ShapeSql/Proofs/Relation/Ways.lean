import Mathlib.Data.Finset.Card
import ShapeSql.Proofs.Relation.Built

/-!
Trees of relations by their ways. A place is told from its siblings by its table, its kind and its name, so
a way down is a list of these, and a tree is what it has at the end of every way: nothing, or a join and a
set of column names. What two trees have there can be united, in any order, where they hold no different
joins. A copy has all the ways of the original.
-/

namespace ShapeSql

/-- What a place is identified by among its siblings: its table, its kind and its name up to case. -/
abbrev PlaceKey := TableId × RelationKind × String

/-- What merging adds up: the pairs that join a place and the names of its columns. -/
structure Content where
  join : List JoinPair
  columns : Finset String
  deriving DecidableEq

namespace Relation

def key (r : Relation) : PlaceKey := (r.table, r.kind, lowerAscii r.name)

def content (r : Relation) : Content := ⟨r.join, (r.columns.map ProjectedColumn.name).toFinset⟩

end Relation

namespace Relations

theorem matching_iff_key {own other : Relation} :
    matching own other = true ↔ own.key = other.key := by
  rw [matching_iff, sameName, beq_iff_eq, Relation.key, Relation.key, Prod.mk.injEq, Prod.mk.injEq]

/-- The names of united columns are those of both sides. -/
theorem names_uniteColumns (own other : List ProjectedColumn) :
    ((uniteColumns own other).map ProjectedColumn.name).toFinset =
      (own.map ProjectedColumn.name).toFinset ∪ (other.map ProjectedColumn.name).toFinset := by
  have hone : ∀ (columns : List ProjectedColumn) (c : ProjectedColumn),
      ((uniteColumn columns c).map ProjectedColumn.name).toFinset =
        insert c.name (columns.map ProjectedColumn.name).toFinset := by
    intro columns c
    induction columns with
    | nil => rfl
    | cons own rest ih =>
      rw [uniteColumn]
      split
      · rename_i hsame
        rw [List.map_cons, List.map_cons, List.toFinset_cons, hsame, Finset.insert_idem]
      · rw [List.map_cons, List.toFinset_cons, ih, List.map_cons, List.toFinset_cons,
          Finset.insert_comm]
  unfold uniteColumns
  induction other generalizing own with
  | nil => rw [List.foldl_nil, List.map_nil, List.toFinset_nil, Finset.union_empty]
  | cons c other ih =>
    rw [List.foldl_cons, ih, hone, List.map_cons, List.toFinset_cons, Finset.insert_union,
      Finset.union_insert]

theorem commonJoin?_eq (own other : List JoinPair) : commonJoin? own other =
    if own = [] ∨ other = [] ∨ own = other then some (if own = [] then other else own) else none := by
  unfold commonJoin?
  cases own with
  | nil => rfl
  | cons p own =>
    cases other with
    | nil => rfl
    | cons q other =>
      simp only [List.isEmpty_cons, Bool.false_or, Bool.false_eq_true, if_false, beq_iff_eq,
        reduceCtorEq, false_or]

section Content

/-- The union of what two sides have in one place. -/
def unite : Option Content → Option Content → Option Content
  | none, other => other
  | some own, none => some own
  | some own, some other =>
    some ⟨if own.join = [] then other.join else own.join, own.columns ∪ other.columns⟩

/-- Two sides do not hold different joins in one place. -/
def Agree : Option Content → Option Content → Prop
  | some own, some other => own.join = [] ∨ other.join = [] ∨ own.join = other.join
  | _, _ => True

theorem unite_none (x : Option Content) : unite x none = x := by
  cases x with
  | none => rfl
  | some _ => rfl

theorem agree_none (x : Option Content) : Agree x none := by
  cases x with
  | none => trivial
  | some _ => trivial

theorem agree_comm {x y : Option Content} (h : Agree x y) : Agree y x := by
  cases x with
  | none => exact agree_none y
  | some own =>
    cases y with
    | none => trivial
    | some other =>
      rcases h with hown | hother | hsame
      · exact Or.inr (Or.inl hown)
      · exact Or.inl hother
      · exact Or.inr (Or.inr hsame.symm)

theorem unite_comm {x y : Option Content} (h : Agree x y) : unite x y = unite y x := by
  cases x with
  | none => rw [unite_none, unite]
  | some own =>
    cases y with
    | none => rfl
    | some other =>
      obtain ⟨join, columns⟩ := own
      obtain ⟨otherJoin, otherColumns⟩ := other
      have hjoin : (if join = [] then otherJoin else join) =
          if otherJoin = [] then join else otherJoin := by
        rcases h with rfl | rfl | rfl
        · by_cases hnone : otherJoin = []
          · rw [if_pos rfl, if_pos hnone, hnone]
          · rw [if_pos rfl, if_neg hnone]
        · by_cases hnone : join = []
          · rw [if_pos rfl, if_pos hnone, hnone]
          · rw [if_pos rfl, if_neg hnone]
        · rfl
      simp only [unite]
      rw [hjoin, Finset.union_comm]

theorem unite_assoc (x y z : Option Content) : unite (unite x y) z = unite x (unite y z) := by
  cases x with
  | none => rfl
  | some own =>
    cases y with
    | none => rw [unite, unite]
    | some other =>
      cases z with
      | none => rw [unite_none, unite_none]
      | some third =>
        simp only [unite, Finset.union_assoc]
        by_cases hown : own.join = []
        · simp only [hown, if_true]
        · simp only [hown, if_false]

/-- What agrees with a union agrees with both sides, if these agree with each other. -/
theorem agree_unite {x y : Option Content} (h : Agree x y) (z : Option Content) :
    Agree (unite x y) z ↔ Agree x z ∧ Agree y z := by
  cases x with
  | none => exact ⟨fun hz => ⟨agree_comm (agree_none z), hz⟩, And.right⟩
  | some own =>
    cases y with
    | none => exact ⟨fun hz => ⟨hz, agree_comm (agree_none z)⟩, And.left⟩
    | some other =>
      cases z with
      | none => exact iff_of_true trivial ⟨trivial, trivial⟩
      | some third =>
        simp only [unite, Agree] at h ⊢
        by_cases hown : own.join = []
        · simp only [hown, if_true, true_or, true_and]
        · simp only [hown, if_false, false_or] at h ⊢
          constructor
          · intro hz
            refine ⟨hz, ?_⟩
            rcases h with hnone | hsame
            · exact Or.inl hnone
            · rw [← hsame]
              exact Or.inr hz
          · exact And.left

end Content

section Ways

/-- The tree with this key among siblings. -/
def childAt (ts : List RelationTree) (key : PlaceKey) : Option RelationTree :=
  ts.find? fun t => t.label.key = key

/-- What a tree has at the end of a way. -/
def contentAt : List PlaceKey → RelationTree → Option Content
  | [], t => some t.label.content
  | key :: way, t => (childAt t.children key).bind (contentAt way)

/-- What siblings have at the end of a way that starts at one of them. -/
def contentBelow (ts : List RelationTree) (key : PlaceKey) (way : List PlaceKey) : Option Content :=
  (childAt ts key).bind (contentAt way)

def keys (ts : List RelationTree) : List PlaceKey := ts.map fun t => t.label.key

mutual

/-- Siblings differ in table, kind or name. -/
def SiblingsApart : RelationTree → Prop
  | .node _ kids => (keys kids).Nodup ∧ SiblingsApartAll kids

def SiblingsApartAll : List RelationTree → Prop
  | [] => True
  | t :: ts => SiblingsApart t ∧ SiblingsApartAll ts

end

mutual

def decidableSiblingsApart : (t : RelationTree) → Decidable (SiblingsApart t)
  | .node _ kids =>
    have := decidableSiblingsApartAll kids
    inferInstanceAs (Decidable (_ ∧ _))

def decidableSiblingsApartAll : (ts : List RelationTree) → Decidable (SiblingsApartAll ts)
  | [] => inferInstanceAs (Decidable True)
  | t :: ts =>
    have := decidableSiblingsApart t
    have := decidableSiblingsApartAll ts
    inferInstanceAs (Decidable (_ ∧ _))

end

instance : DecidablePred SiblingsApart := decidableSiblingsApart

theorem siblingsApartAll_iff {ts : List RelationTree} :
    SiblingsApartAll ts ↔ ∀ t ∈ ts, SiblingsApart t := by
  induction ts with
  | nil => exact ⟨fun _ => List.forall_mem_nil _, fun _ => trivial⟩
  | cons t ts ih => rw [SiblingsApartAll, List.forall_mem_cons, ih]

/-- Trees with different keys, in each of which siblings differ. -/
structure Siblings (ts : List RelationTree) : Prop where
  keys : (keys ts).Nodup
  below : ∀ t ∈ ts, SiblingsApart t

theorem SiblingsApart.siblings {t : RelationTree} (h : SiblingsApart t) : Siblings t.children := by
  obtain ⟨r, kids⟩ := t
  exact ⟨h.1, siblingsApartAll_iff.mp h.2⟩

theorem SiblingsApart.of_siblings {t : RelationTree} (h : Siblings t.children) : SiblingsApart t := by
  obtain ⟨r, kids⟩ := t
  exact ⟨h.keys, siblingsApartAll_iff.mpr h.below⟩

theorem siblings_cons {t : RelationTree} {ts : List RelationTree} :
    Siblings (t :: ts) ↔ t.label.key ∉ keys ts ∧ SiblingsApart t ∧ Siblings ts := by
  constructor
  · rintro ⟨hkeys, hbelow⟩
    obtain ⟨hnew, hrest⟩ := List.nodup_cons.mp hkeys
    rw [List.forall_mem_cons] at hbelow
    exact ⟨hnew, hbelow.1, hrest, hbelow.2⟩
  · rintro ⟨hnew, ht, hrest⟩
    exact ⟨List.nodup_cons.mpr ⟨hnew, hrest.keys⟩, List.forall_mem_cons.mpr ⟨ht, hrest.below⟩⟩

theorem siblings_append {xs ys : List RelationTree} : Siblings (xs ++ ys) ↔
    Siblings xs ∧ Siblings ys ∧ ∀ key ∈ keys xs, key ∉ keys ys := by
  constructor
  · rintro ⟨hkeys, hbelow⟩
    rw [keys, List.map_append, List.nodup_append'] at hkeys
    rw [List.forall_mem_append] at hbelow
    exact ⟨⟨hkeys.1, hbelow.1⟩, ⟨hkeys.2.1, hbelow.2⟩, fun key hx hy => hkeys.2.2 hx hy⟩
  · rintro ⟨hx, hy, hapart⟩
    refine ⟨?_, List.forall_mem_append.mpr ⟨hx.below, hy.below⟩⟩
    rw [keys, List.map_append, List.nodup_append']
    exact ⟨hx.keys, hy.keys, fun key hmem hmem' => hapart key hmem hmem'⟩

theorem childAt_cons (t : RelationTree) (ts : List RelationTree) (key : PlaceKey) :
    childAt (t :: ts) key = if t.label.key = key then some t else childAt ts key := by
  by_cases h : t.label.key = key
  · simp only [childAt, List.find?_cons, h, decide_true, if_true]
  · simp only [childAt, List.find?_cons, h, decide_false, if_false]

theorem childAt_append (xs ys : List RelationTree) (key : PlaceKey) :
    childAt (xs ++ ys) key = (childAt xs key).or (childAt ys key) := List.find?_append

theorem childAt_eq_none {ts : List RelationTree} {key : PlaceKey} :
    childAt ts key = none ↔ key ∉ keys ts := by
  simp [childAt, keys]

theorem childAt_some {ts : List RelationTree} {key : PlaceKey} {t : RelationTree}
    (h : childAt ts key = some t) : t ∈ ts ∧ t.label.key = key := by
  have hkey := List.find?_some h
  exact ⟨List.mem_of_find?_eq_some h, of_decide_eq_true hkey⟩

theorem contentBelow_cons_self (t : RelationTree) (ts : List RelationTree) (way : List PlaceKey) :
    contentBelow (t :: ts) t.label.key way = contentAt way t := by
  rw [contentBelow, childAt_cons, if_pos rfl, Option.bind_some]

theorem contentBelow_cons_of_ne {t : RelationTree} {key : PlaceKey} (h : key ≠ t.label.key)
    (ts : List RelationTree) (way : List PlaceKey) :
    contentBelow (t :: ts) key way = contentBelow ts key way := by
  rw [contentBelow, childAt_cons, if_neg (Ne.symm h), contentBelow]

theorem contentBelow_eq_none {ts : List RelationTree} {key : PlaceKey} (h : key ∉ keys ts)
    (way : List PlaceKey) : contentBelow ts key way = none := by
  rw [contentBelow, childAt_eq_none.mpr h, Option.bind_none]

/-- A tree among siblings can be replaced by one with its key. -/
theorem childAt_replace {before after : List RelationTree} {c t : RelationTree}
    (hsame : t.label.key = c.label.key) (hnew : c.label.key ∉ keys before) (key : PlaceKey) :
    childAt (before ++ t :: after) key =
      if key = c.label.key then some t else childAt (before ++ c :: after) key := by
  rw [childAt_append, childAt_append, childAt_cons, childAt_cons, hsame]
  by_cases h : key = c.label.key
  · rw [if_pos h, if_pos h.symm, h, childAt_eq_none.mpr hnew, Option.none_or]
  · rw [if_neg h, if_neg (Ne.symm h), if_neg (Ne.symm h)]

end Ways

section Copy

/-- A copy has the key and the ways of the original. -/
structure CopyOf (t copy : RelationTree) : Prop where
  key : copy.label.key = t.label.key
  content : ∀ way, contentAt way copy = contentAt way t
  apart : SiblingsApart t → SiblingsApart copy

theorem keys_of_copies {ts copies : List RelationTree} (h : List.Forall₂ CopyOf ts copies) :
    keys copies = keys ts := by
  induction h with
  | nil => rfl
  | cons hfirst _ ih =>
    rw [keys, keys, List.map_cons, List.map_cons, hfirst.key]
    exact congrArg _ ih

theorem content_of_copies {ts copies : List RelationTree} (h : List.Forall₂ CopyOf ts copies)
    (key : PlaceKey) (way : List PlaceKey) :
    contentBelow copies key way = contentBelow ts key way := by
  induction h with
  | nil => rfl
  | @cons t copy _ _ hfirst _ ih =>
    by_cases hkey : key = t.label.key
    · rw [hkey, contentBelow_cons_self, ← hfirst.key, contentBelow_cons_self, hfirst.content]
    · have hother : key ≠ copy.label.key := hfirst.key ▸ hkey
      rw [contentBelow_cons_of_ne hkey, contentBelow_cons_of_ne hother, ih]

theorem siblings_of_copies {ts copies : List RelationTree} (h : List.Forall₂ CopyOf ts copies)
    (hts : Siblings ts) : Siblings copies := by
  refine ⟨keys_of_copies h ▸ hts.keys, fun copy hcopy => ?_⟩
  obtain ⟨t, ht, hcopied⟩ := mem_left_of_forall₂ h hcopy
  exact hcopied.apart (hts.below t ht)

theorem join_relation (u : Supply) (table : TableId) (name : String) (path : Path)
    (join : List JoinPair) (kind : RelationKind) (desired : Option String) (parentAlias : String) :
    (u.relation table name path join kind desired parentAlias).1.join = join := by
  unfold Supply.relation
  split
  · rfl
  · rfl

mutual

theorem copyTree_copies : ∀ (t : RelationTree) (parentAlias : String) (u : Supply),
    CopyOf t (copyTree parentAlias t u).1
  | .node r kids, parentAlias, u => by
    rw [copyTree]
    have hkids := copyTrees_copies kids
      (u.relation r.table r.name r.path r.join r.kind
        (if r.isEmbedded then none else some r.aliasName) parentAlias).1.aliasName
      (u.relation r.table r.name r.path r.join r.kind
        (if r.isEmbedded then none else some r.aliasName) parentAlias).2
    refine ⟨?_, fun way => ?_, fun h => .of_siblings (siblings_of_copies hkids h.siblings)⟩
    · exact Prod.ext (u.table_relation ..) (Prod.ext (u.path_relation ..).2.1
        (congrArg lowerAscii (u.name_relation ..)))
    · cases way with
      | nil =>
        have hjoin := join_relation u r.table r.name r.path r.join r.kind
          (if r.isEmbedded then none else some r.aliasName) parentAlias
        exact congrArg (fun join => some (Content.mk join r.content.columns)) hjoin
      | cons key way => exact content_of_copies hkids key way

theorem copyTrees_copies : ∀ (ts : List RelationTree) (parentAlias : String) (u : Supply),
    List.Forall₂ CopyOf ts (copyTrees parentAlias ts u).1
  | [], _, _ => .nil
  | t :: ts, parentAlias, u => by
    rw [copyTrees]
    exact .cons (copyTree_copies t parentAlias u) (copyTrees_copies ts parentAlias _)

end

end Copy

end Relations
end ShapeSql
