import ShapeSql.Proofs.Relation.Union
import ShapeSql.Proofs.Relation.Visits

/-!
Merges add to relations and take nothing away. Whether a merge succeeds or stops halfway, every place that
was there keeps its number, its name and its parent, and new columns and new children come behind those it
had; so what was said of a place by its number and its alias stays true in all later relations. The numbers
are given out without gaps, and the walk comes to each of them once.
-/

namespace ShapeSql

/-- What a column is, apart from whether it is read for the output. -/
def ProjectedColumn.shown (c : ProjectedColumn) : ColumnId × String := (c.column, c.name)

/-- The same place with more columns, and a join if it had none. -/
structure Relation.Extends (before after : Relation) : Prop where
  id : after.id = before.id
  table : after.table = before.table
  name : after.name = before.name
  path : after.path = before.path
  aliasName : after.aliasName = before.aliasName
  kind : after.kind = before.kind
  join : before.join ≠ [] → after.join = before.join
  columns : before.columns.map ProjectedColumn.shown <+: after.columns.map ProjectedColumn.shown

theorem Relation.Extends.refl (r : Relation) : r.Extends r where
  id := rfl
  table := rfl
  name := rfl
  path := rfl
  aliasName := rfl
  kind := rfl
  join := fun _ => rfl
  columns := List.prefix_rfl

theorem Relation.Extends.trans {a b c : Relation} (hab : a.Extends b) (hbc : b.Extends c) :
    a.Extends c where
  id := hbc.id.trans hab.id
  table := hbc.table.trans hab.table
  name := hbc.name.trans hab.name
  path := hbc.path.trans hab.path
  aliasName := hbc.aliasName.trans hab.aliasName
  kind := hbc.kind.trans hab.kind
  join := fun hjoin => by
    have hkept := hab.join hjoin
    rw [hbc.join (hkept ▸ hjoin), hkept]
  columns := hab.columns.trans hbc.columns

section Trees

mutual

/-- A tree that has grown: its places are extended, and further children stand behind those of before. -/
def Widened : RelationTree → RelationTree → Prop
  | .node r kids, t => r.Extends t.label ∧ WidenedAll kids t.children

def WidenedAll : List RelationTree → List RelationTree → Prop
  | [], _ => True
  | t :: ts, others => ∃ u us, others = u :: us ∧ Widened t u ∧ WidenedAll ts us

end

mutual

theorem Widened.refl : ∀ t : RelationTree, Widened t t
  | .node r kids => ⟨.refl r, WidenedAll.refl kids⟩

theorem WidenedAll.refl : ∀ ts : List RelationTree, WidenedAll ts ts
  | [] => trivial
  | t :: ts => ⟨t, ts, rfl, Widened.refl t, WidenedAll.refl ts⟩

end

mutual

theorem Widened.trans : ∀ {a b c : RelationTree}, Widened a b → Widened b c → Widened a c
  | .node _ _, .node _ _, .node _ _, ⟨hab, habKids⟩, ⟨hbc, hbcKids⟩ =>
    ⟨hab.trans hbc, WidenedAll.trans habKids hbcKids⟩

theorem WidenedAll.trans : ∀ {as bs cs : List RelationTree},
    WidenedAll as bs → WidenedAll bs cs → WidenedAll as cs
  | [], _, _, _, _ => trivial
  | _ :: _, _, _, ⟨_, _, rfl, hab, habs⟩, ⟨c, cs, rfl, hbc, hbcs⟩ =>
    ⟨c, cs, rfl, hab.trans hbc, habs.trans hbcs⟩

end

theorem Widened.label {t u : RelationTree} (h : Widened t u) : t.label.Extends u.label := by
  obtain ⟨r, kids⟩ := t
  exact h.1

theorem WidenedAll.append (ts more : List RelationTree) : WidenedAll ts (ts ++ more) := by
  induction ts with
  | nil => trivial
  | cons t ts ih => exact ⟨t, ts ++ more, rfl, .refl t, ih⟩

/-- One tree of a forest has grown. -/
theorem WidenedAll.middle (before after : List RelationTree) {t u : RelationTree} (h : Widened t u) :
    WidenedAll (before ++ t :: after) (before ++ u :: after) := by
  induction before with
  | nil => exact ⟨u, after, rfl, h, .refl after⟩
  | cons b before ih => exact ⟨b, before ++ u :: after, rfl, .refl b, ih⟩

theorem WidenedAll.left {xs ys others : List RelationTree} (h : WidenedAll (xs ++ ys) others) :
    WidenedAll xs others := by
  induction xs generalizing others with
  | nil => trivial
  | cons x xs ih =>
    obtain ⟨u, us, rfl, hfirst, hrest⟩ := h
    exact ⟨u, us, rfl, hfirst, ih hrest⟩

/-- A forest that has grown consists of what became of its two parts. -/
theorem WidenedAll.split {xs ys others : List RelationTree} (h : WidenedAll (xs ++ ys) others) :
    ∃ left right, others = left ++ right ∧ List.Forall₂ Widened xs left ∧ WidenedAll ys right := by
  induction xs generalizing others with
  | nil => exact ⟨[], others, rfl, .nil, h⟩
  | cons x xs ih =>
    obtain ⟨u, us, rfl, hfirst, hrest⟩ := h
    obtain ⟨left, right, rfl, hleft, hright⟩ := ih hrest
    exact ⟨u :: left, right, rfl, .cons hfirst hleft, hright⟩

theorem WidenedAll.ids {ts us : List RelationTree} (h : WidenedAll ts us) :
    (ts.map Tree.label).map Relation.id <+: (us.map Tree.label).map Relation.id := by
  induction ts generalizing us with
  | nil => exact List.nil_prefix
  | cons t ts ih =>
    obtain ⟨u, us, rfl, hfirst, hrest⟩ := h
    obtain ⟨r, kids⟩ := t
    rw [List.map_cons, List.map_cons, List.map_cons, List.map_cons, hfirst.1.id]
    exact (List.prefix_cons_inj _).mpr (ih hrest)

end Trees

section Visits

/-- The visit of a place that has been extended: below the same parent, with the children of before and
perhaps others after them. -/
structure Relations.Revisits (before after : Tree.Visit Relation) : Prop where
  label : before.label.Extends after.label
  parent : after.parent?.map Relation.id = before.parent?.map Relation.id
  children : before.children.map Relation.id <+: after.children.map Relation.id

mutual

theorem Widened.revisited : ∀ {t u : RelationTree} {above above' : List Relation}, Widened t u →
    above'.head?.map Relation.id = above.head?.map Relation.id →
      ∀ v ∈ t.visitsBelow above, ∃ w ∈ u.visitsBelow above', Relations.Revisits v w
  | .node r kids, .node r' kids', above, above', ⟨hlabel, hkids⟩, habove => by
    intro v hv
    rw [Tree.visitsBelow] at hv
    rw [Tree.visitsBelow]
    rcases List.mem_cons.mp hv with rfl | hbelow
    · exact ⟨_, List.mem_cons_self, hlabel, habove, WidenedAll.ids hkids⟩
    · have hparent : (r' :: above').head?.map Relation.id = (r :: above).head?.map Relation.id :=
        congrArg some hlabel.id
      obtain ⟨w, hw, hrevisits⟩ := hkids.revisited hparent v hbelow
      exact ⟨w, List.mem_cons_of_mem _ hw, hrevisits⟩

theorem WidenedAll.revisited : ∀ {ts us : List RelationTree} {above above' : List Relation},
    WidenedAll ts us → above'.head?.map Relation.id = above.head?.map Relation.id →
      ∀ v ∈ Tree.visitsBelowAll above ts, ∃ w ∈ Tree.visitsBelowAll above' us, Relations.Revisits v w
  | [], _, _, _, _, _ => nofun
  | t :: ts, _, above, above', ⟨u, us, rfl, hfirst, hrest⟩, habove => by
    intro v hv
    rw [Tree.visitsBelowAll] at hv
    rw [Tree.visitsBelowAll]
    rcases List.mem_append.mp hv with hleft | hright
    · obtain ⟨w, hw, hrevisits⟩ := hfirst.revisited habove v hleft
      exact ⟨w, List.mem_append_left _ hw, hrevisits⟩
    · obtain ⟨w, hw, hrevisits⟩ := hrest.revisited habove v hright
      exact ⟨w, List.mem_append_right _ hw, hrevisits⟩

end

end Visits

namespace Relations

section Merges

/-- United columns are those of the one side, in their order, and others behind them. -/
theorem shown_uniteColumns (own other : List ProjectedColumn) :
    own.map ProjectedColumn.shown <+: (uniteColumns own other).map ProjectedColumn.shown := by
  have hunite : ∀ (own : List ProjectedColumn) (c : ProjectedColumn),
      own.map ProjectedColumn.shown <+: (uniteColumn own c).map ProjectedColumn.shown := by
    intro own c
    induction own with
    | nil => exact List.nil_prefix
    | cons first rest ih =>
      unfold uniteColumn
      split
      · exact List.prefix_rfl
      · exact (List.prefix_cons_inj _).mpr ih
  unfold uniteColumns
  induction other generalizing own with
  | nil => exact List.prefix_rfl
  | cons c other ih => exact (hunite own c).trans (ih _)

/-- The common join of two places is that of the first one if it has any. -/
theorem commonJoin?_own {own other join : List JoinPair} (h : commonJoin? own other = some join)
    (hown : own ≠ []) : join = own := by
  rw [commonJoin?, if_neg (by rw [List.isEmpty_iff]; exact hown)] at h
  split at h
  · exact (Option.some.inj h).symm
  · cases h

mutual

theorem mergeTree_widened : ∀ (other own : RelationTree) (u : Supply),
    Widened own (mergeTree own other u).value
  | .node r kids, .node label children, u => by
    rw [mergeTree]
    refine ⟨?_, mergeTrees_widened kids label.aliasName children u⟩
    exact { Relation.Extends.refl label with columns := shown_uniteColumns label.columns r.columns }

theorem mergeTrees_widened : ∀ (others : List RelationTree) (parentAlias : String)
    (own : List RelationTree) (u : Supply),
    WidenedAll own (mergeTrees parentAlias own others u).value
  | [], _, own, _ => .refl own
  | t :: ts, parentAlias, own, u => by
    rcases mergeTrees_cons parentAlias own t ts u with ⟨_, h⟩ |
      ⟨before, label, children, behind, rfl, _, ⟨_, h⟩ | ⟨join, hjoin, hplaced⟩⟩
    · rw [h]
      exact (WidenedAll.append own _).trans (mergeTrees_widened ts parentAlias _ _)
    · rw [h]
      exact .refl _
    · have hjoined : Widened (.node label children) (.node { label with join } children) :=
        ⟨{ Relation.Extends.refl label with join := commonJoin?_own hjoin }, .refl children⟩
      have hmerged := mergeTree_widened t (.node { label with join } children) u
      have hset := WidenedAll.middle before behind (hjoined.trans hmerged)
      rcases hplaced with ⟨_, _, h⟩ | ⟨_, h⟩
      · rw [h]
        exact hset
      · rw [h]
        exact hset.trans (mergeTrees_widened ts parentAlias _ _)

end

theorem merge_widened (own other : Relations) : Widened own.tree (own.merge other).value.tree := by
  unfold merge
  split
  · exact mergeTree_widened other.tree own.tree own.supply
  · exact .refl _

/-- The relations after merges with others, one after the other, each of which may fail. -/
def mergeAll (own : Relations) (others : List Relations) : Relations :=
  others.foldl (fun relations other => (relations.merge other).value) own

theorem mergeAll_widened (own : Relations) (others : List Relations) :
    Widened own.tree (own.mergeAll others).tree := by
  induction others generalizing own with
  | nil => exact .refl _
  | cons other others ih => exact (merge_widened own other).trans (ih _)

theorem mergeAll_append (own : Relations) (before more : List Relations) :
    own.mergeAll (before ++ more) = (own.mergeAll before).mergeAll more :=
  List.foldl_append

end Merges

section Standing

variable {s : Schema} {table : Table}

/-- The search for an alias ends: at the desired name, or at the first of its numbered spellings that no
row source has. -/
def SearchEnds (u : Supply) (desired name : String) : Prop :=
  (lowerAscii desired ∉ u.aliases ∧ name = desired) ∨
  (lowerAscii desired ∈ u.aliases ∧ ∃ k, 2 ≤ k ∧ name = s!"{desired}_{k}" ∧ lowerAscii name ∉ u.aliases ∧
    ∀ j, 2 ≤ j → j < k → lowerAscii s!"{desired}_{j}" ∈ u.aliases)

theorem freeAlias_searchEnds (u : Supply) (desired : String) : SearchEnds u desired (u.freeAlias desired) := by
  have hfree := u.freeAlias_free desired
  unfold Supply.freeAlias firstFree at hfree ⊢
  by_cases hused : lowerAscii desired ∈ u.aliases
  · rw [if_neg (by simpa using hused)] at hfree ⊢
    rw [List.find?_map] at hfree ⊢
    cases hfound : (List.range (u.aliases.length + 1)).find?
        ((fun name => !u.aliases.contains (lowerAscii name)) ∘ fun n => s!"{desired}_{n + 2}") with
    | none =>
      rw [hfound] at hfree
      exact absurd hused hfree
    | some k =>
      rw [hfound] at hfree
      obtain ⟨_, _, hbefore⟩ := List.find?_range_eq_some.mp hfound
      refine Or.inr ⟨hused, k + 2, Nat.le_add_left _ _, rfl, hfree, fun j hj hlt => ?_⟩
      have hblocked := hbefore (j - 2) (by omega)
      rw [Function.comp_apply, Nat.sub_add_cancel hj, Bool.not_not, List.contains_iff_mem] at hblocked
      exact hblocked
  · rw [if_pos (by simpa using hused)]
    exact Or.inl ⟨hused, rfl⟩

/-- What holds of relations at any time: the root and the joined places have names of their own, an
embedded place has that of its parent, and the walk comes to every number given out once, to a parent
before its children. -/
structure Standing (relations : Relations) : Prop where
  aliases : ((relations.root :: relations.all.filter Relation.isJoined).map
    fun r => lowerAscii r.aliasName).Nodup
  embedded : ∀ v ∈ relations.visits, v.label.kind = .embedded →
    ∃ parent, v.parent? = some parent ∧ v.label.aliasName = parent.aliasName
  once : (relations.visits.map fun v => v.label.id).Perm (List.range relations.supply.next)
  ordered : ∀ i v, relations.visits[i]? = some v → (i = 0 ∧ v.parent? = none) ∨
    ∃ j w, j < i ∧ relations.visits[j]? = some w ∧ v.parent? = some w.label

/-- The names of joined places are among those of all that are not embedded. -/
theorem map_joined_sublist (rs : List Relation) :
    ((rs.filter Relation.isJoined).map fun r => lowerAscii r.aliasName).Sublist
      (rs.filterMap Relation.rowName?) := by
  induction rs with
  | nil => exact .slnil
  | cons r rs ih =>
    cases hjoined : r.isJoined with
    | true =>
      have hown : r.isEmbedded = false := by
        cases hkind : r.kind with
        | root | embedded =>
          rw [Relation.isJoined, hkind] at hjoined
          cases hjoined
        | navigation _ | junction | hop => rw [Relation.isEmbedded, hkind]
      rw [List.filter_cons_of_pos hjoined, List.filterMap_cons, Relation.rowName?, hown]
      exact ih.cons_cons _
    | false =>
      rw [List.filter_cons_of_neg (by simp [hjoined]), List.filterMap_cons]
      split
      · exact ih
      · exact ih.cons _

theorem Given.ids_perm {relations : Relations} (h : relations.Given) :
    (relations.all.map Relation.id).Perm (List.range relations.supply.next) := by
  have hlength : relations.supply.next = (relations.all.map Relation.id).length := by
    rw [h.count, Nat.zero_add, List.length_map, List.length_map]
  have hwithin : relations.all.map Relation.id ⊆ List.range relations.supply.next := by
    intro id hid
    obtain ⟨r, hr, rfl⟩ := List.mem_map.mp hid
    exact List.mem_range.mpr
      (h.within r.id (List.mem_map.mpr ⟨r.stamp, List.mem_map_of_mem hr, rfl⟩)).2
  refine (List.subperm_of_subset h.numbered.ids hwithin).perm_of_length_le ?_
  rw [List.length_range, hlength]

theorem Ordered.getElem? {seen vs : List (Tree.Visit Relation)} (h : Ordered s seen vs) {i : Nat}
    {v : Tree.Visit Relation} (hv : vs[i]? = some v) :
    ∃ j w, j < seen.length + i ∧ (seen ++ vs)[j]? = some w ∧ Below s w v := by
  induction vs generalizing seen i with
  | nil => cases hv
  | cons first rest ih =>
    cases i with
    | zero =>
      cases hv
      obtain ⟨w, hw, hbelow⟩ := h.1
      obtain ⟨j, hj⟩ := List.mem_iff_getElem?.mp hw
      have hlt := (List.getElem?_eq_some_iff.mp hj).1
      exact ⟨j, w, hlt, by rw [List.getElem?_append_left hlt, hj], hbelow⟩
    | succ i =>
      obtain ⟨j, w, hj, hfound, hbelow⟩ := ih h.2 hv
      rw [List.length_append, List.length_singleton] at hj
      rw [List.append_assoc] at hfound
      exact ⟨j, w, by omega, hfound, hbelow⟩

theorem Wired.standing {relations : Relations} (h : relations.Wired s table) : relations.Standing where
  aliases := by
    have hroot : relations.root.rowName? = some (lowerAscii relations.root.aliasName) := by
      rw [Relation.rowName?, Relation.isEmbedded, h.rootKind]
      rfl
    have hall : relations.all = relations.root :: Tree.preorderAll relations.tree.children := by
      obtain ⟨⟨root, kids⟩, supply⟩ := relations
      rfl
    have hnames := h.given.numbered.names
    rw [hall, List.filterMap_cons, hroot] at hnames
    have hplain : ¬ relations.root.isJoined = true := by
      rw [Relation.isJoined, h.rootKind]
      exact Bool.false_ne_true
    rw [hall, List.filter_cons_of_neg hplain, List.map_cons]
    exact hnames.sublist ((map_joined_sublist _).cons_cons _)
  embedded v hv hkind := by
    rcases h.visit_cases hv with rfl | ⟨w, _, hlineage, hunder⟩
    · have hroot : relations.root.kind = .embedded := hkind
      rw [h.rootKind] at hroot
      cases hroot
    · exact ⟨w.label, by rw [Tree.Visit.parent?, hlineage]; rfl, (hunder.embedded hkind).2.1⟩
  once := by
    have hids := h.given.ids_perm
    rw [← map_label_visits, List.map_map] at hids
    exact hids
  ordered i v hv := by
    rw [visits_eq] at hv ⊢
    cases i with
    | zero =>
      cases hv
      exact Or.inl ⟨rfl, rfl⟩
    | succ i =>
      obtain ⟨j, w, hj, hfound, hlineage, _⟩ := h.ordered.getElem? hv
      rw [List.length_singleton, Nat.add_comm] at hj
      exact Or.inr ⟨j, w, hj, hfound, by rw [Tree.Visit.parent?, hlineage]; rfl⟩

/-- Relations that an output or a path is resolved to, over a table of the schema. -/
inductive Resolved (s : Schema) : Relations → Prop
  | output {r : Resolver} {table : Table} {output : FieldTree} {relations : Relations} :
    r.schema = s → table ∈ s.tables → r.resolve table output = .ok relations → Resolved s relations
  | path {r : Resolver} {table : Table} {path : Path} {relations : Relations} :
    r.schema = s → table ∈ s.tables → r.resolvePath table path = .ok relations → Resolved s relations

theorem Resolved.wired (hs : s.Sound) (hkeyed : s.Keyed) {relations : Relations}
    (h : Resolved s relations) : ∃ table ∈ s.tables, relations.Wired s table := by
  cases h with
  | output hschema htable h =>
    subst hschema
    exact ⟨_, htable, Resolver.resolve_wired hs hkeyed htable h⟩
  | path hschema htable h =>
    subst hschema
    exact ⟨_, htable, Resolver.resolvePath_wired hs hkeyed htable h⟩

theorem Wired.mergeAll (hs : s.Sound) (htable : table ∈ s.tables) {own : Relations}
    (hown : own.Wired s table) {others : List Relations}
    (hothers : ∀ other ∈ others, ∃ table ∈ s.tables, other.Wired s table) :
    (own.mergeAll others).Wired s table := by
  induction others generalizing own with
  | nil => exact hown
  | cons other others ih =>
    rw [List.forall_mem_cons] at hothers
    obtain ⟨⟨otherTable, hotherTable, hother⟩, hrest⟩ := hothers
    have hmerged : (own.merge other).value.Wired s table := by
      by_cases hroots : own.root.table = other.root.table
      · have hids : table.id = otherTable.id := by
          rw [← hown.rootTable, hroots, hother.rootTable]
        obtain rfl : table = otherTable := by
          rw [← hs.table_id htable, hids, hs.table_id hotherTable]
        exact hown.merge hother
      · unfold Relations.merge
        rw [if_neg hroots]
        exact hown
    exact ih hmerged hrest

/-- However many relations are merged into others, and whether the merges succeed or fail, every place
stays with its number, its names, its kind, its parent and its join, its columns and children only grow at
the end, and the relations keep in order. -/
theorem mergeAll_conservative {declarations : List TableDeclaration} {schema : Schema}
    (hschema : Schema.build declarations = .ok schema) {own : Relations} {before more : List Relations}
    (hown : Resolved schema own) (hothers : ∀ other ∈ before ++ more, Resolved schema other) :
    (∀ v ∈ (own.mergeAll before).visits, ∃ w ∈ (own.mergeAll (before ++ more)).visits, Revisits v w) ∧
      (own.mergeAll before).Standing ∧
      ∀ u desired, SearchEnds u desired (u.freeAlias desired) := by
  have hs := Schema.build_sound hschema
  have hkeyed := Schema.build_keyed hschema
  obtain ⟨table, htable, hwired⟩ := hown.wired hs hkeyed
  refine ⟨?_, ?_, freeAlias_searchEnds⟩
  · have hwidened := mergeAll_widened (own.mergeAll before) more
    rw [← mergeAll_append] at hwidened
    exact hwidened.revisited rfl
  · exact (hwired.mergeAll hs htable fun other hother =>
      (hothers other (List.mem_append_left _ hother)).wired hs hkeyed).standing

/-- The relations along a path from a table of the office. -/
def officeWalk (schema : Schema) (root : String) (steps : List String) : Option Relations :=
  (schema.findTable root).bind fun table =>
    (Resolver.resolvePath ⟨schema, .exact, .warn⟩ table ⟨steps⟩).toOption

theorem resolved_officeWalk {root : String} {steps : List String} {relations : Relations}
    (h : officeWalk s root steps = some relations) : Resolved s relations := by
  obtain ⟨table, htable, h⟩ := Option.bind_eq_some_iff.mp h
  exact .path rfl (mem_of_findNamed htable) (ok_of_toOption h)

/-- The employees of a department, then its projects, then the department of an employee, which is refused,
and the employees once more. -/
theorem mergeAll_conservative_office : ∃ schema employees projects elsewhere again,
    Schema.build officeDeclarations = .ok schema ∧
      officeWalk schema "Department" ["Employee"] = some employees ∧
      officeWalk schema "Department" ["Project"] = some projects ∧
      officeWalk schema "Employee" ["Department"] = some elsewhere ∧
      officeWalk schema "Department" ["EMPLOYEE"] = some again ∧
      (employees.merge elsewhere).failure.isSome = true ∧
      (∀ v ∈ (employees.mergeAll [projects, elsewhere]).visits,
        ∃ w ∈ (employees.mergeAll ([projects, elsewhere] ++ [again])).visits, Revisits v w) ∧
      (employees.mergeAll [projects, elsewhere]).Standing := by
  have htest : ((Schema.build officeDeclarations).toOption.any fun schema =>
      (officeWalk schema "Department" ["Employee"]).any fun employees =>
        (officeWalk schema "Department" ["Project"]).any fun _ =>
          (officeWalk schema "Employee" ["Department"]).any fun elsewhere =>
            (officeWalk schema "Department" ["EMPLOYEE"]).any fun _ =>
              (employees.merge elsewhere).failure.isSome) = true := by
    decide +kernel
  obtain ⟨schema, hschema, htest⟩ := exists_ok_of_any htest
  simp only [Option.any_eq_true] at htest
  obtain ⟨employees, hemployees, projects, hprojects, elsewhere, helsewhere, again, hagain, hrefused⟩ := htest
  have hothers : ∀ other ∈ [projects, elsewhere] ++ [again], Resolved schema other := by
    simp only [List.cons_append, List.nil_append, List.forall_mem_cons]
    exact ⟨resolved_officeWalk hprojects, resolved_officeWalk helsewhere, resolved_officeWalk hagain, nofun⟩
  obtain ⟨hrevisited, hstanding, _⟩ :=
    mergeAll_conservative hschema (resolved_officeWalk hemployees) hothers
  exact ⟨schema, employees, projects, elsewhere, again, hschema, hemployees, hprojects, helsewhere, hagain,
    hrefused, hrevisited, hstanding⟩

end Standing

end Relations

end ShapeSql
