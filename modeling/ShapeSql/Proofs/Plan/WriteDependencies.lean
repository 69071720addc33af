import ShapeSql.Proofs.Plan.WriteBatch
import ShapeSql.Proofs.Compiler

/-!
Batches follow their data. Rows are in a variable before a merge takes them, keys are there before they
are copied or paired, a merge finds the keys that its rows refer to, and what is removed or selected is
so when all has been written.
-/

namespace ShapeSql

open Sql Planning

/-- The tables are written once each, in an order in which every row follows those it refers to: a table
that a key of the one above refers to comes before that one, any other one after it. -/
structure WrittenTree.Ordered (tree : WrittenTree) : Prop where
  once : (Planner.writeOrder [] tree).Perm tree.visits
  distinct : ((Planner.written tree).map WrittenTable.index).Nodup
  linked : ∀ v ∈ tree.visits, ∀ parent, v.parent? = some parent →
    (∀ pairs, v.label.link = some (.parentHolds pairs) →
      Precedes (Planner.written tree) v.label parent) ∧
    ((∀ pairs, v.label.link ≠ some (.parentHolds pairs)) →
      Precedes (Planner.written tree) parent v.label)

namespace Sql.Batch

/-- The rows that a merge of another table waits for. -/
def linkRole (parent child : WrittenTable) : Option Role :=
  match child.link with
  | some (.parentHolds _) => some (.transfers parent.lookup child.lookup)
  | some (.childHolds _) => some (.transfers child.lookup parent.lookup)
  | some (.junction _ _ _) => some (.pairs child.lookup parent.lookup)
  | none => none

/-- The statements of a batch stand in the order of what they read and write. -/
structure WriteOrdered (tree : WrittenTree) (batch : Batch) : Prop where
  /-- A variable is declared before a statement names it. -/
  declared : ∀ before st after, batch = before ++ st :: after →
    ∀ name ∈ st.collect .variables (), .declares name ∈ Batch.roles before
  declaredOnce : ∀ name, batch.roles.count (.declares name) ≤ 1
  /-- Rows are put into a variable once, before any merge. -/
  filled : ∀ t ∈ tree.preorder, batch.roles.count (.fills t.lookup) = 1 ∧
    ∀ name, Precedes batch.roles (.fills t.lookup) (.merges name)
  /-- The tables are merged in the order of writing. -/
  merged : batch.roles.filter (fun r => r matches .merges _) =
    (Planner.written tree).map fun t => .merges t.lookup
  /-- Cells go into rows from captured keys, or from the rows of another table after its keys were
  written back and before the merge of the rows that they go into. -/
  transferred : ∀ into source, .transfers into source ∈ batch.roles →
    ∃ t ∈ tree.preorder, into = t.lookup ∧ (source = t.output ∨
      ∃ other ∈ tree.preorder, source = other.lookup ∧
        (other.table.hasKey = true → Precedes batch.roles (.transfers other.lookup other.output)
          (.transfers into source)) ∧
        Precedes batch.roles (.transfers into source) (.merges into))
  /-- Rows are paired after the keys of both sides were written back. -/
  paired : ∀ rows owners, .pairs rows owners ∈ batch.roles →
    ∃ t ∈ tree.preorder, ∃ owner ∈ tree.preorder, rows = t.lookup ∧ owners = owner.lookup ∧
      ∀ u ∈ [t, owner], u.table.hasKey = true →
        Precedes batch.roles (.transfers u.lookup u.output) (.pairs rows owners)
  /-- Every link has the statement that carries its keys. -/
  linked : ∀ v ∈ tree.visits, ∀ parent, v.parent? = some parent →
    ∃ role ∈ batch.roles, linkRole parent v.label = some role
  /-- After a removal there are only removals and the select. -/
  removed : ∀ before after, batch.roles = before ++ .removes :: after →
    ∀ role ∈ after, role = .removes ∨ role = .selects
  selected : ∀ before after, batch.roles = before ++ .selects :: after → after = []

end Sql.Batch

namespace Planner

variable {p : Planner} {tree : WrittenTree} {d d' : Draft}

theorem Laid.ordered (h : p.Laid tree) : tree.Ordered where
  once := writeOrder_perm tree []
  distinct := h.nodup_written
  linked := by
    intro v hv parent hparent
    have hinOrder := (Tree.Edges.tied tree nofun h.inOrder v hv).above parent hparent
    unfold Laid.InOrder writtenFirst at hinOrder
    refine ⟨fun pairs hlink => ?_, fun hnot => ?_⟩
    · rw [hlink] at hinOrder
      exact hinOrder
    · split at hinOrder
      · exact absurd ‹_› (hnot _)
      · exact hinOrder

section Parts

variable {r : Role} {filled returned : Batch} {entity : Path} {relations : Option Relations}
  {name : String}

theorem mem_roles_declarations : r ∈ (declarations tree).roles ↔
    ∃ name, r = .declares name ∧ Declared tree name := by
  rw [Batch.roles, declarations, List.map_flatMap]
  constructor
  · intro h
    obtain ⟨t, ht, hr⟩ := List.mem_flatMap.mp h
    rw [List.map_cons] at hr
    rcases List.mem_cons.mp hr with rfl | hr
    · exact ⟨t.lookup, rfl, t, ht, Or.inl rfl⟩
    · split at hr
      · rename_i hkey
        rw [List.map_singleton, List.mem_singleton] at hr
        exact ⟨t.output, hr, t, ht, Or.inr ⟨hkey, rfl⟩⟩
      · cases hr
  · rintro ⟨name, rfl, t, ht, rfl | ⟨hkey, rfl⟩⟩
    · exact List.mem_flatMap.mpr ⟨t, ht, List.mem_cons_self⟩
    · refine List.mem_flatMap.mpr ⟨t, ht, ?_⟩
      rw [if_pos hkey]
      exact List.mem_cons_of_mem _ List.mem_cons_self

/-- No two tables share a variable, and none has one variable for both purposes. -/
theorem nodup_declarations (h : p.Laid tree) : (declarations tree).roles.Nodup := by
  rw [Batch.roles, declarations, List.map_flatMap]
  refine List.nodup_flatMap.mpr ⟨fun t _ => ?_, ?_⟩
  · rw [List.map_cons]
    split
    · simp [WrittenTable.lookup_ne_output]
    · exact List.nodup_singleton _
  · refine (List.pairwise_map.mp h.nodup_indexes).imp ?_
    intro t u hdiffer r ht hu
    have hnames : ∀ t : WrittenTable, r ∈ List.map Statement.role
        (t.declareLookup :: if t.table.hasKey then [t.declareOutput] else []) →
          r = .declares t.lookup ∨ r = .declares t.output := by
      intro t hr
      rw [List.map_cons] at hr
      rcases List.mem_cons.mp hr with rfl | hr
      · exact Or.inl rfl
      · split at hr
        · exact Or.inr (List.mem_singleton.mp hr)
        · cases hr
    rcases hnames t ht with rfl | rfl
    · rcases hnames u hu with hsame | hsame
      · exact hdiffer (WrittenTable.lookup_eq_iff.mp (Role.declares.inj hsame))
      · exact WrittenTable.lookup_ne_output (Role.declares.inj hsame)
    · rcases hnames u hu with hsame | hsame
      · exact WrittenTable.lookup_ne_output (Role.declares.inj hsame).symm
      · exact hdiffer (WrittenTable.output_eq_iff.mp (Role.declares.inj hsame))

/-- Each table is filled by a statement that names its variable only. -/
theorem filled_each
    (hfilled : (tree.preorder.mapM fun t => fillLookup t entity).run d = .ok (filled, d')) :
    List.Forall₂ (fun t st => st.role = .fills t.lookup ∧ st.collect .variables () = [t.lookup])
      tree.preorder filled := by
  refine forall₂_of_run_mapM_ok (fun t st d d' hrun => ?_) hfilled
  obtain ⟨base, _, _, hole, _, rfl⟩ := fillLookup_inv hrun
  exact ⟨rfl, rfl⟩

theorem roles_filled
    (hfilled : (tree.preorder.mapM fun t => fillLookup t entity).run d = .ok (filled, d')) :
    filled.roles = tree.preorder.map fun t => .fills t.lookup := by
  have heach := filled_each hfilled
  rw [Batch.roles]
  clear hfilled
  generalize tree.preorder = tables at heach ⊢
  induction heach with
  | nil => rfl
  | cons hst _ ih => rw [List.map_cons, List.map_cons, hst.1, ih]

theorem declared_of_filled
    (hfilled : (tree.preorder.mapM fun t => fillLookup t entity).run d = .ok (filled, d'))
    {st : Statement} (hst : st ∈ filled) (hname : name ∈ st.collect .variables ()) :
    Declared tree name := by
  obtain ⟨t, ht, _, hvariables⟩ := mem_left_of_forall₂ (filled_each hfilled) hst
  rw [hvariables] at hname
  exact ⟨t, ht, Or.inl (List.mem_singleton.mp hname)⟩

theorem roles_removals (p : Planner) (tree : WrittenTree) :
    ∀ r ∈ (p.removals tree).roles, r = .removes := by
  intro r h
  obtain ⟨st, hst, rfl⟩ := List.mem_map.mp h
  unfold removals at hst
  split at hst
  · obtain ⟨v, _, hst⟩ := List.mem_flatMap.mp hst
    obtain ⟨_, _, rfl⟩ := p.delete_of_removeStale hst
    rfl
  · cases hst

theorem roles_returned (h : p.Returned returned relations) :
    returned.roles = [] ∨ returned.roles = [.selects] := by
  rcases h with ⟨rfl, _⟩ | ⟨_, query, _, _, rfl, _⟩
  · exact Or.inl rfl
  · exact Or.inr rfl

/-- Of the statements that write a table, one merges its rows. -/
theorem merges_writeTable (upsert : Bool) (v : Tree.Visit WrittenTable) :
    (p.writeTable upsert v).roles.filter (fun r => r matches .merges _) =
      [.merges v.label.lookup] := by
  have hnone : ∀ roles : List Role, (∀ r ∈ roles, ∀ name, r ≠ .merges name) →
      roles.filter (fun r => r matches .merges _) = [] := by
    intro roles h
    refine List.filter_eq_nil_iff.mpr fun r hr => ?_
    cases r with
    | merges name => exact (h _ hr name rfl).elim
    | _ => exact Bool.false_ne_true
  rw [roles_writeTable, List.filter_append, List.filter_cons_of_pos rfl, hnone, hnone,
    List.nil_append]
  · intro r hr name
    rcases List.mem_append.mp hr with hkeyed | hpaired
    · rcases (mem_keyedRoles hkeyed).2 with rfl | rfl
      · exact nofun
      · exact nofun
    · obtain ⟨_, rfl, _⟩ := mem_pairedRoles.mp hpaired
      exact nofun
  · intro r hr name
    obtain ⟨_, rfl, _⟩ := mem_roles_copiedKeys.mp hr
    exact nofun

/-- What writes and removes names variables that are declared. -/
theorem declared_of_around {v : Tree.Visit WrittenTable} (hall : v.All fun t => t ∈ tree.preorder)
    (h : (name = v.label.lookup ∨ (v.label.table.hasKey = true ∧ name = v.label.output)) ∨
      ∃ other, (v.parent? = some other ∨ other ∈ v.children) ∧ name = other.lookup) :
    Declared tree name := by
  rcases h with hown | ⟨other, hother | hother, rfl⟩
  · exact ⟨v.label, hall.label, hown⟩
  · exact ⟨other, hall.ancestors other (List.mem_of_mem_head? hother), Or.inl rfl⟩
  · exact ⟨other, hall.children other hother, Or.inl rfl⟩

theorem declared_of_writes {st : Statement} (hst : st ∈ p.writes tree)
    (hname : name ∈ st.collect .variables ()) :
    Declared tree name := by
  obtain ⟨v, hv, hst⟩ := List.mem_flatMap.mp hst
  exact declared_of_around (Laid.all_writeOrder v hv) (variables_writeTable hst hname)

theorem declared_of_removals {st : Statement} (hst : st ∈ p.removals tree)
    (hname : name ∈ st.collect .variables ()) : Declared tree name := by
  unfold removals at hst
  split at hst
  · obtain ⟨v, hv, hst⟩ := List.mem_flatMap.mp hst
    have hv : v ∈ tree.visits := List.mem_of_mem_drop (List.mem_reverse.mp hv)
    have hall : v.All fun t => t ∈ tree.preorder :=
      Tree.all_of_visitsBelow tree nofun (fun _ h => h) v hv
    refine declared_of_around hall ?_
    rcases variables_removeStale hst hname with hown | ⟨parent, hparent, rfl⟩
    · exact Or.inl (Or.inl hown)
    · exact Or.inr ⟨parent, Or.inl hparent, rfl⟩
  · cases hst

theorem declared_of_returned (h : p.Laid tree) (hreturned : p.Returned returned relations)
    {st : Statement} (hst : st ∈ returned) (hname : name ∈ st.collect .variables ()) :
    Declared tree name := by
  rcases hreturned with ⟨rfl, _⟩ | ⟨output, query, found, hquery, rfl, _⟩
  · cases hst
  · rw [List.mem_singleton.mp hst] at hname
    rw [variables_returning hquery hname]
    exact ⟨tree.label, Tree.label_mem_preorder tree, Or.inl h.lookup_root.symm⟩

end Parts

section Linked

variable {v : Tree.Visit WrittenTable} {us ws : List (Tree.Visit WrittenTable)} {other : WrittenTable}

/-- What precedes a visited table in the order of writing is visited before it. -/
theorem exists_before (horder : writeOrder [] tree = us ++ v :: ws)
    (h : Precedes (written tree) other v.label) : ∃ u ∈ us, u.label = other := by
  have hlabels : written tree = us.map Tree.Visit.label ++ v.label :: ws.map Tree.Visit.label := by
    rw [written, horder, List.map_append, List.map_cons]
  exact List.mem_map.mp (h _ _ hlabels).1

theorem Laid.tied_inOrder (h : p.Laid tree) (horder : writeOrder [] tree = us ++ v :: ws) :
    v.Tied (Laid.InOrder tree) := by
  refine Laid.tied_writeOrder h.inOrder v ?_
  rw [horder]
  exact List.mem_append_right _ List.mem_cons_self

/-- Keys are copied from tables that are written before. -/
theorem Laid.before_of_copies (h : p.Laid tree) (horder : writeOrder [] tree = us ++ v :: ws)
    (hcopies : Copies v other) : ∃ u ∈ us, u.label = other := by
  apply exists_before horder
  rcases hcopies with ⟨hparent, pairs, hlink⟩ | ⟨hchild, pairs, hlink⟩
  · have hbefore := (h.tied_inOrder horder).above other hparent
    rw [Laid.InOrder, writtenFirst, hlink] at hbefore
    exact hbefore
  · have hbefore := (h.tied_inOrder horder).below other hchild
    rw [Laid.InOrder, writtenFirst, hlink] at hbefore
    exact hbefore

/-- Rows are paired with those of a table that is written before. -/
theorem Laid.before_of_pairs (h : p.Laid tree) (horder : writeOrder [] tree = us ++ v :: ws)
    (hpairs : Pairs v other) : ∃ u ∈ us, u.label = other := by
  apply exists_before horder
  obtain ⟨hparent, junction, toParent, toChild, hlink⟩ := hpairs
  have hbefore := (h.tied_inOrder horder).above other hparent
  rw [Laid.InOrder, writtenFirst, hlink] at hbefore
  exact hbefore

end Linked

section Batch

variable {filled returned batch : Batch} {entity : Path} {relations : Option Relations}

/-- The statements before the tables are written, and those after, work on no rows of theirs. -/
theorem Laid.between (h : p.Laid tree)
    (hfilled : (tree.preorder.mapM fun t => fillLookup t entity).run d = .ok (filled, d'))
    (hreturned : p.Returned returned relations) :
    Between (writeOrder [] tree) ((declarations tree).roles ++ filled.roles)
      ((p.removals tree).roles ++ returned.roles) where
  nodup := by
    have hnodup := h.nodup_written
    rw [written, List.map_map] at hnodup
    exact hnodup
  pre := by
    rw [roles_filled hfilled]
    refine List.forall_mem_append.mpr ⟨fun r hr => ?_, fun r hr => ?_⟩
    · obtain ⟨name, rfl, _⟩ := mem_roles_declarations.mp hr
      rfl
    · obtain ⟨t, _, rfl⟩ := List.mem_map.mp hr
      rfl
  post := by
    refine List.forall_mem_append.mpr ⟨fun r hr => ?_, fun r hr => ?_⟩
    · rw [p.roles_removals tree r hr]
      rfl
    · rcases roles_returned hreturned with hnone | hselects
      · rw [hnone] at hr
        cases hr
      · rw [hselects, List.mem_singleton] at hr
        rw [hr]
        rfl

theorem roles_batch : (declarations tree ++ filled ++ p.writes tree ++ p.removals tree ++
    returned).roles = Between.roles p (p.operation ≠ .insert) (writeOrder [] tree)
      ((declarations tree).roles ++ filled.roles) ((p.removals tree).roles ++ returned.roles) := by
  simp only [Batch.roles, Between.roles, writes, List.map_append, List.map_flatMap, List.append_assoc]

/-- What works on rows stands among the statements that write tables. -/
theorem mem_writeTable_of_subject {upsert : Bool} {order : List (Tree.Visit WrittenTable)}
    {pre post : List Role} (h : Between order pre post) {r : Role} {name : String}
    (hr : r.subject? = some name) (hmem : r ∈ Between.roles p upsert order pre post) :
    ∃ v ∈ order, r ∈ (p.writeTable upsert v).roles := by
  rcases List.mem_append.mp hmem with hmem | hpost
  · rcases List.mem_append.mp hmem with hpre | hmem
    · exact nomatch (h.pre r hpre).symm.trans hr
    · exact List.mem_flatMap.mp hmem
  · exact nomatch (h.post r hpost).symm.trans hr

section Written

variable {upsert : Bool} {order : List (Tree.Visit WrittenTable)} {pre post : List Role}
  {into source rows owners : String}

/-- Cells go into rows from captured keys, or from rows whose keys were written back before. -/
theorem Laid.transferred (h : p.Laid tree) (hbetween : Between (writeOrder [] tree) pre post)
    (hmem : .transfers into source ∈ Between.roles p upsert (writeOrder [] tree) pre post) :
    ∃ t ∈ tree.preorder, into = t.lookup ∧ (source = t.output ∨
      ∃ other ∈ tree.preorder, source = other.lookup ∧
        (other.table.hasKey = true → Precedes (Between.roles p upsert (writeOrder [] tree) pre post)
          (.transfers other.lookup other.output) (.transfers into source)) ∧
        Precedes (Between.roles p upsert (writeOrder [] tree) pre post) (.transfers into source)
          (.merges into)) := by
  obtain ⟨v, hv, hrole⟩ := mem_writeTable_of_subject hbetween rfl hmem
  have hall := Laid.all_writeOrder v hv
  obtain ⟨us, ws, horder⟩ := List.append_of_mem hv
  rcases mem_roles_writeTable hrole with ⟨other, hcopy, hcopies⟩ | hmerge | ⟨_, hback | hupdate⟩ |
    ⟨_, hpair, _⟩
  · cases hcopy
    obtain ⟨u, hu, rfl⟩ := h.before_of_copies horder hcopies
    have hmember : u.label ∈ tree.preorder := by
      refine (Laid.all_writeOrder u ?_).label
      rw [horder]
      exact List.mem_append_left _ hu
    rw [horder] at hbetween ⊢
    refine ⟨v.label, hall.label, rfl, Or.inr ⟨u.label, hmember, rfl, fun hkey => ?_, ?_⟩⟩
    · exact hbetween.across hu (writeBack_mem_roles hkey) rfl
    · refine hbetween.within (roles_writeTable p upsert v)
        (mem_roles_copiedKeys.mpr ⟨u.label, rfl, hcopies⟩) ?_ rfl ?_
      · intro hlate
        rcases List.mem_cons.mp hlate with hmerge | hlate
        · cases hmerge
        · rcases List.mem_append.mp hlate with hkeyed | hpaired
          · rcases (mem_keyedRoles hkeyed).2 with hback | hupdate
            · exact WrittenTable.lookup_ne_output (Role.transfers.inj hback).2
            · cases hupdate
          · obtain ⟨_, hpair, _⟩ := mem_pairedRoles.mp hpaired
            cases hpair
      · intro hearly
        obtain ⟨_, hcopy, _⟩ := mem_roles_copiedKeys.mp hearly
        cases hcopy
  · cases hmerge
  · cases hback
    exact ⟨v.label, hall.label, rfl, Or.inl rfl⟩
  · cases hupdate
  · cases hpair

/-- Rows are paired after the keys of both sides were written back. -/
theorem Laid.paired (h : p.Laid tree) (hbetween : Between (writeOrder [] tree) pre post)
    (hmem : .pairs rows owners ∈ Between.roles p upsert (writeOrder [] tree) pre post) :
    ∃ t ∈ tree.preorder, ∃ owner ∈ tree.preorder, rows = t.lookup ∧ owners = owner.lookup ∧
      ∀ u ∈ [t, owner], u.table.hasKey = true →
        Precedes (Between.roles p upsert (writeOrder [] tree) pre post)
          (.transfers u.lookup u.output) (.pairs rows owners) := by
  obtain ⟨v, hv, hrole⟩ := mem_writeTable_of_subject hbetween rfl hmem
  have hall := Laid.all_writeOrder v hv
  obtain ⟨us, ws, horder⟩ := List.append_of_mem hv
  rcases mem_roles_writeTable hrole with ⟨_, hcopy, _⟩ | hmerge | ⟨_, hback | hupdate⟩ |
    ⟨owner, hpair, hpairs⟩
  · cases hcopy
  · cases hmerge
  · cases hback
  · cases hupdate
  · cases hpair
    have hancestor := hall.ancestors owner (List.mem_of_mem_head? hpairs.1)
    obtain ⟨u, hu, rfl⟩ := h.before_of_pairs horder hpairs
    rw [horder] at hbetween ⊢
    refine ⟨v.label, hall.label, u.label, hancestor, rfl, rfl, ?_⟩
    intro side hside hkey
    rcases List.mem_cons.mp hside with rfl | hside
    · have hroles : (p.writeTable upsert v).roles = ((p.copiedKeys v).roles ++
          .merges v.label.lookup :: keyedRoles v.label upsert) ++ pairedRoles v := by
        rw [roles_writeTable, List.append_assoc, List.cons_append]
      refine hbetween.within hroles ?_ ?_ rfl ?_
      · exact List.mem_append_right _ (List.mem_cons_of_mem _ (writeBack_mem_keyedRoles hkey))
      · intro hlate
        obtain ⟨_, hpair, _⟩ := mem_pairedRoles.mp hlate
        cases hpair
      · intro hearly
        rcases List.mem_append.mp hearly with hcopied | hearly
        · obtain ⟨_, hcopy, _⟩ := mem_roles_copiedKeys.mp hcopied
          cases hcopy
        · rcases List.mem_cons.mp hearly with hmerge | hkeyed
          · cases hmerge
          · rcases (mem_keyedRoles hkeyed).2 with hback | hupdate
            · cases hback
            · cases hupdate
    · rw [List.mem_singleton] at hside
      rw [hside] at hkey ⊢
      exact hbetween.across hu (writeBack_mem_roles hkey) rfl

/-- The keys of every link are carried from one of its tables to the other, or to a junction. -/
theorem Laid.carried (h : p.Laid tree) {v : Tree.Visit WrittenTable} (hv : v ∈ tree.visits)
    {parent : WrittenTable} (hparent : v.parent? = some parent) :
    ∃ role ∈ Between.roles p upsert (writeOrder [] tree) pre post,
      Batch.linkRole parent v.label = some role := by
  have hwritten : ∀ w ∈ tree.visits, ∀ r ∈ (p.writeTable upsert w).roles,
      r ∈ Between.roles p upsert (writeOrder [] tree) pre post := fun w hw r hr =>
    List.mem_append_left _ (List.mem_append_right _
      (List.mem_flatMap.mpr ⟨w, (writeOrder_perm tree []).symm.subset hw, hr⟩))
  obtain ⟨⟨link, hlink, _⟩, _⟩ := ((Tree.Edges.tied tree nofun h.edges v hv).above parent hparent).1
  rw [Batch.linkRole, hlink]
  cases link with
  | parentHolds pairs =>
    rcases Tree.parent_of_visitsBelow tree v hv with ⟨hroot, _⟩ | ⟨w, hw, habove, hchild⟩
    · rw [Tree.Visit.parent?, hroot] at hparent
      cases hparent
    · rw [hparent, Option.some.injEq] at habove
      refine ⟨_, hwritten w hw _ ?_, rfl⟩
      rw [roles_writeTable, habove]
      exact List.mem_append_left _
        (mem_roles_copiedKeys.mpr ⟨v.label, rfl, Or.inr ⟨hchild, pairs, hlink⟩⟩)
  | childHolds pairs =>
    refine ⟨_, hwritten v hv _ ?_, rfl⟩
    rw [roles_writeTable]
    exact List.mem_append_left _
      (mem_roles_copiedKeys.mpr ⟨parent, rfl, Or.inl ⟨hparent, pairs, hlink⟩⟩)
  | junction junction toParent toChild =>
    refine ⟨_, hwritten v hv _ ?_, rfl⟩
    rw [roles_writeTable]
    exact List.mem_append_right _ (List.mem_cons_of_mem _ (List.mem_append_right _
      (mem_pairedRoles.mpr ⟨parent, rfl, hparent, junction, toParent, toChild, hlink⟩)))

end Written

section Whole

variable {rest : Batch} {name : String}

/-- Where what follows the declarations names declared variables only, nothing is named too early. -/
theorem declared_before (hrest : ∀ st ∈ rest, ∀ name ∈ st.collect .variables (), Declared tree name)
    {before after : Batch} {st : Statement}
    (h : declarations tree ++ rest = before ++ st :: after) (hname : name ∈ st.collect .variables ()) :
    .declares name ∈ Batch.roles before := by
  have hnone : ∀ st ∈ declarations tree, st.collect .variables () = [] := by
    intro st hst
    obtain ⟨t, _, hst⟩ := List.mem_flatMap.mp hst
    rcases List.mem_cons.mp hst with rfl | hst
    · rfl
    · split at hst
      · rw [List.mem_singleton.mp hst]
        rfl
      · cases hst
  obtain ⟨between, rfl, rfl⟩ := append_eq_cut h fun hst => by
    rw [hnone st hst] at hname
    cases hname
  have hdeclared := hrest st (List.mem_append_right _ List.mem_cons_self) name hname
  rw [Batch.roles, List.map_append]
  exact List.mem_append_left _ (mem_roles_declarations.mpr ⟨name, rfl, hdeclared⟩)

/-- In a list that ends in removals and at most one select, only these follow a removal, and nothing
follows the select. -/
theorem last_removals {roles removed selected : List Role} (hroles : ∀ r ∈ roles,
    r ≠ .removes ∧ r ≠ .selects) (hremoved : ∀ r ∈ removed, r = .removes)
    (hselected : selected = [] ∨ selected = [.selects]) :
    (∀ before after, roles ++ removed ++ selected = before ++ .removes :: after →
      ∀ r ∈ after, r = .removes ∨ r = .selects) ∧
    ∀ before after, roles ++ removed ++ selected = before ++ .selects :: after → after = [] := by
  constructor
  · intro before after h r hr
    rw [List.append_assoc] at h
    obtain ⟨between, _, hrest⟩ := append_eq_cut h fun hmem => (hroles _ hmem).1 rfl
    have hmem : r ∈ removed ++ selected := by
      rw [hrest]
      exact List.mem_append_right _ (List.mem_cons_of_mem _ hr)
    rcases List.mem_append.mp hmem with hremove | hselect
    · exact Or.inl (hremoved r hremove)
    · rcases hselected with rfl | rfl
      · cases hselect
      · exact Or.inr (List.mem_singleton.mp hselect)
  · intro before after h
    obtain ⟨between, _, hrest⟩ := append_eq_cut h fun hmem => by
      rcases List.mem_append.mp hmem with hmem | hmem
      · exact (hroles _ hmem).2 rfl
      · cases hremoved _ hmem
    rcases hselected with rfl | rfl
    · exact absurd hrest (by simp)
    · cases between with
      | nil => exact (List.cons.inj hrest).2.symm
      | cons first between => exact absurd (List.cons.inj hrest).2 (by simp)

/-- The statements that write tables work on rows. -/
theorem subject_writes {r : Role} (hr : r ∈ (p.writes tree).roles) : r.subject?.isSome = true := by
  simp only [Batch.roles, writes, List.map_flatMap] at hr
  obtain ⟨v, _, hr⟩ := List.mem_flatMap.mp hr
  rw [subject_writeTable hr]
  rfl

/-- What may follow the statements that put rows into variables. -/
def Late (r : Role) : Prop := r.subject?.isSome = true ∨ r = .removes ∨ r = .selects

theorem late_of_mem (tree : WrittenTree) (hreturned : p.Returned returned relations) :
    ∀ r ∈ (p.writes tree).roles ++ ((p.removals tree).roles ++ returned.roles), Late r := by
  intro r hr
  rcases List.mem_append.mp hr with hwrite | hr
  · exact Or.inl (subject_writes hwrite)
  · rcases List.mem_append.mp hr with hremove | hselect
    · exact Or.inr (Or.inl (p.roles_removals tree r hremove))
    · rcases roles_returned hreturned with hnone | hselects
      · rw [hnone] at hselect
        cases hselect
      · rw [hselects, List.mem_singleton] at hselect
        exact Or.inr (Or.inr hselect)

/-- Declarations come first, then what fills the variables, then the rest. -/
theorem roles_parts (hfilled : (tree.preorder.mapM fun t => fillLookup t entity).run d = .ok (filled, d')) :
    (declarations tree ++ filled ++ p.writes tree ++ p.removals tree ++ returned).roles =
      (declarations tree).roles ++ (tree.preorder.map (fun t => .fills t.lookup) ++
        ((p.writes tree).roles ++ ((p.removals tree).roles ++ returned.roles))) := by
  rw [← roles_filled hfilled]
  simp only [Batch.roles, List.map_append, List.append_assoc]

theorem fills_not_declared (name : String) : Role.fills name ∉ (declarations tree).roles := by
  intro hmem
  obtain ⟨_, hdeclares, _⟩ := mem_roles_declarations.mp hmem
  cases hdeclares

section Late

variable {later : List Role}

theorem not_late_of_declares (hlater : ∀ r ∈ later, Late r) (name : String) :
    Role.declares name ∉ later := by
  intro hmem
  rcases hlater _ hmem with hsome | hremoves | hselects
  · cases hsome
  · cases hremoves
  · cases hselects

theorem not_late_of_fills (hlater : ∀ r ∈ later, Late r) (name : String) :
    Role.fills name ∉ later := by
  intro hmem
  rcases hlater _ hmem with hsome | hremoves | hselects
  · cases hsome
  · cases hremoves
  · cases hselects

theorem Laid.declares_once (h : p.Laid tree) (hlater : ∀ r ∈ later, Late r) (name : String) :
    ((declarations tree).roles ++ (tree.preorder.map (fun t => Role.fills t.lookup) ++ later)).count
      (.declares name) ≤ 1 := by
  have hfilled : Role.declares name ∉ tree.preorder.map fun t => Role.fills t.lookup := by
    intro hmem
    obtain ⟨t, _, hfills⟩ := List.mem_map.mp hmem
    cases hfills
  rw [List.count_append, List.count_append, List.count_eq_zero_of_not_mem hfilled,
    List.count_eq_zero_of_not_mem (not_late_of_declares hlater name), Nat.add_zero]
  exact List.nodup_iff_count_le_one.mp (nodup_declarations h) _

theorem Laid.fills_once (h : p.Laid tree) (hlater : ∀ r ∈ later, Late r) {t : WrittenTable}
    (ht : t ∈ tree.preorder) :
    ((declarations tree).roles ++ (tree.preorder.map (fun t => Role.fills t.lookup) ++ later)).count
      (.fills t.lookup) = 1 := by
  rw [List.count_append, List.count_append, List.count_eq_zero_of_not_mem (fills_not_declared _),
    List.count_eq_zero_of_not_mem (not_late_of_fills hlater _), Nat.zero_add, Nat.add_zero]
  refine List.count_eq_one_of_mem (List.pairwise_map.mpr ?_) (List.mem_map_of_mem ht)
  refine (List.pairwise_map.mp h.nodup_indexes).imp fun hdiffer hsame => ?_
  exact hdiffer (WrittenTable.lookup_eq_iff.mp (Role.fills.inj hsame))

theorem fills_precede (hlater : ∀ r ∈ later, Late r) {t : WrittenTable} (ht : t ∈ tree.preorder)
    (name : String) : Precedes
      ((declarations tree).roles ++ (tree.preorder.map (fun t => Role.fills t.lookup) ++ later))
        (.fills t.lookup) (.merges name) := by
  have hfills : Role.fills t.lookup ∈ tree.preorder.map fun t => Role.fills t.lookup :=
    List.mem_map_of_mem ht
  rw [← List.append_assoc]
  apply precedes_append (List.mem_append_right _ hfills) (not_late_of_fills hlater _)
  intro hmem
  rcases List.mem_append.mp hmem with hmem | hmem
  · obtain ⟨_, hdeclares, _⟩ := mem_roles_declarations.mp hmem
    cases hdeclares
  · obtain ⟨t, _, hfills⟩ := List.mem_map.mp hmem
    cases hfills

end Late

/-- The tables are merged one after the other, in the order of writing. -/
theorem merges_between {upsert : Bool} {pre post : List Role}
    (hbetween : Between (writeOrder [] tree) pre post) :
    (Between.roles p upsert (writeOrder [] tree) pre post).filter (fun r => r matches .merges _) =
      (written tree).map fun t => .merges t.lookup := by
  have hnone : ∀ roles : List Role, (∀ r ∈ roles, r.subject? = none) →
      roles.filter (fun r => r matches .merges _) = [] := by
    intro roles hnone
    refine List.filter_eq_nil_iff.mpr fun r hr => ?_
    cases r with
    | merges name => cases hnone _ hr
    | _ => exact Bool.false_ne_true
  rw [Between.roles, List.filter_append, List.filter_append, hnone _ hbetween.pre,
    hnone _ hbetween.post, List.nil_append, List.append_nil, List.filter_flatMap]
  simp only [merges_writeTable]
  rw [← List.map_eq_flatMap, written, List.map_map]
  rfl

/-- Before the removals nothing removes rows or returns any. -/
theorem early_of_mem (p : Planner) (tree : WrittenTree) : ∀ r ∈ (declarations tree).roles ++
    (tree.preorder.map (fun t => Role.fills t.lookup) ++ (p.writes tree).roles),
      r ≠ .removes ∧ r ≠ .selects := by
  intro r hr
  simp only [List.mem_append] at hr
  rcases hr with hr | hr | hr
  · obtain ⟨_, rfl, _⟩ := mem_roles_declarations.mp hr
    exact ⟨Role.noConfusion, Role.noConfusion⟩
  · obtain ⟨t, _, rfl⟩ := List.mem_map.mp hr
    exact ⟨Role.noConfusion, Role.noConfusion⟩
  · have hsome := subject_writes hr
    constructor
    · rintro rfl
      cases hsome
    · rintro rfl
      cases hsome

/-- What a batch names is declared: what fills variables, writes, removes and returns names no other. -/
theorem Laid.declared_of_rest (h : p.Laid tree)
    (hfilled : (tree.preorder.mapM fun t => fillLookup t entity).run d = .ok (filled, d'))
    (hreturned : p.Returned returned relations) : ∀ st ∈ filled ++ (p.writes tree ++
      (p.removals tree ++ returned)), ∀ name ∈ st.collect .variables (), Declared tree name := by
  intro st hst name hname
  simp only [List.mem_append] at hst
  rcases hst with hst | hst | hst | hst
  · exact declared_of_filled hfilled hst hname
  · exact declared_of_writes hst hname
  · exact declared_of_removals hst hname
  · exact declared_of_returned h hreturned hst hname

end Whole

/-- The batch of a tree of tables follows the data. -/
theorem Laid.writeOrdered (h : p.Laid tree)
    (hfilled : (tree.preorder.mapM fun t => fillLookup t entity).run d = .ok (filled, d'))
    (hreturned : p.Returned returned relations)
    (hbatch : batch = declarations tree ++ filled ++ p.writes tree ++ p.removals tree ++ returned) :
    batch.WriteOrdered tree := by
  have hbetween := h.between hfilled hreturned
  have hroles : batch.roles = Between.roles p (p.operation ≠ .insert) (writeOrder [] tree)
      ((declarations tree).roles ++ filled.roles) ((p.removals tree).roles ++ returned.roles) := by
    rw [hbatch, roles_batch]
  have hparts : batch.roles = (declarations tree).roles ++
      (tree.preorder.map (fun t => .fills t.lookup) ++ ((p.writes tree).roles ++
        ((p.removals tree).roles ++ returned.roles))) := by
    rw [hbatch, roles_parts hfilled]
  have hlater := late_of_mem tree hreturned
  have hends := last_removals (p.early_of_mem tree) (p.roles_removals tree) (roles_returned hreturned)
  have hlast : batch.roles = (declarations tree).roles ++
      (tree.preorder.map (fun t => .fills t.lookup) ++ (p.writes tree).roles) ++
        (p.removals tree).roles ++ returned.roles := by
    rw [hparts]
    simp only [List.append_assoc]
  rw [← hlast] at hends
  exact {
    declared := by
      intro before st after hsplit name hname
      rw [hbatch, List.append_assoc, List.append_assoc, List.append_assoc] at hsplit
      exact declared_before (h.declared_of_rest hfilled hreturned) hsplit hname
    declaredOnce := by
      intro name
      rw [hparts]
      exact h.declares_once hlater name
    filled := by
      intro t ht
      rw [hparts]
      exact ⟨h.fills_once hlater ht, fills_precede hlater ht⟩
    merged := by
      rw [hroles]
      exact merges_between hbetween
    transferred := by
      intro into source hmem
      rw [hroles] at hmem ⊢
      exact h.transferred hbetween hmem
    paired := by
      intro rows owners hmem
      rw [hroles] at hmem ⊢
      exact h.paired hbetween hmem
    linked := by
      intro v hv parent hparent
      rw [hroles]
      exact h.carried hv hparent
    removed := hends.1
    selected := hends.2 }

end Batch

end Planner

namespace Compiler

/-- The batch of an insert, upsert or sync writes the tables of the entity, each once and after those it
refers to, in statements that follow the data; a single table without a result is written by one
statement that names no variable. -/
theorem compile_writeOrdered {declarations : List TableDeclaration} {schema : Schema}
    {setup : CompilerSetup} {c : Compiler} {spec : QuerySpec} {compiled : Compiled}
    (hschema : Schema.build declarations = .ok schema) (hsetup : setup.schema = some schema)
    (hbuild : setup.build = .ok c) (hcompile : c.compile spec = .ok compiled)
    (hwrites : spec.operation = .insert ∨ spec.operation = .upsert ∨ spec.operation = .sync) :
    ∃ p entity tree, Plan.PlannedBy c.resolver c.options.keyWindowAlias spec p ∧
      p.entity = .ok entity ∧ p.writtenTree entity = .ok tree ∧ tree.Ordered ∧
      (compiled.plan.batch.WriteOrdered tree ∨
        tree.size = 1 ∧ ∃ name columns hole,
          compiled.plan.batch = [.insert (.table name) columns (.hole hole)]) := by
  obtain ⟨p, d, hp, hrun, _, _, _, hs, hkeyed, htable⟩ :=
    planner_of_compile hschema hsetup hbuild hcompile
  have hwrite := Planner.write_of_statements hrun (hp.operation ▸ hwrites)
  obtain ⟨entity, tree, hentity, htree, hplain | ⟨filled, returned, hfilled, hreturned, hbatch⟩⟩ :=
    p.write_batch hwrite
  · refine ⟨p, entity, tree, hp, hentity, htree, (Planner.writtenTree_laid hs hkeyed htable htree).ordered,
      Or.inr ⟨hplain.1, ?_⟩⟩
    obtain ⟨_, hplain⟩ := hplain
    obtain ⟨names, _, _, hole, _, hbatch⟩ := Planner.plainInsert_inv hplain
    exact ⟨_, _, hole, hbatch⟩
  · have hlaid := Planner.writtenTree_laid hs hkeyed htable htree
    exact ⟨p, entity, tree, hp, hentity, htree, hlaid.ordered,
      Or.inl (hlaid.writeOrdered hfilled hreturned hbatch)⟩

/-- Orders of a customer, with lines and with tags that other orders may have too. -/
def orderDeclarations : List TableDeclaration := [
  ⟨"Customer", .table, [⟨"Id", .integer 4, false, true, true⟩, ⟨"Name", .text, false, false, false⟩], []⟩,
  ⟨"Order", .table, [⟨"Id", .integer 4, false, true, true⟩,
    ⟨"CustomerId", .integer 4, false, false, false⟩], [⟨["CustomerId"], "Customer", ["Id"]⟩]⟩,
  ⟨"Line", .table, [⟨"Id", .integer 4, false, true, true⟩,
    ⟨"OrderId", .integer 4, false, false, false⟩], [⟨["OrderId"], "Order", ["Id"]⟩]⟩,
  ⟨"Tag", .table, [⟨"Id", .integer 4, false, true, true⟩], []⟩,
  ⟨"OrderTag", .table, [⟨"OrderId", .integer 4, false, true, false⟩,
    ⟨"TagId", .integer 4, false, true, false⟩],
    [⟨["OrderId"], "Order", ["Id"]⟩, ⟨["TagId"], "Tag", ["Id"]⟩]⟩]

def orderShapes : Shapes := .ofList [
  ⟨"Order", none, [⟨"Id", .i32, false, default⟩, ⟨"Customer", .shape "Customer", false, default⟩,
    ⟨"Lines", .list (.shape "Line"), false, default⟩,
    ⟨"Tags", .list (.shape "Tag"), false, default⟩]⟩,
  ⟨"Customer", none, [⟨"Name", .text, false, default⟩]⟩,
  ⟨"Line", none, [⟨"Id", .i32, false, default⟩]⟩,
  ⟨"Tag", none, [⟨"Id", .i32, false, default⟩]⟩]

/-- Orders with all that belongs to them, kept in step. -/
def orderSync : SpecDeclaration where
  operation := .sync
  table := some "Order"
  arguments := [⟨"orders", .list (.shape "Order"), false, default⟩]
  returns := [.many "Order"]

/-- The orders are synced by a batch of several statements. -/
def orderTest (_ : Compiler) (spec : QuerySpec) (compiled : Compiled) : Bool :=
  spec.operation == .sync && compiled.plan.batch.length == 29

/-- The batch of the orders follows the data. -/
theorem compile_writeOrdered_order :
    ∃ schema spec compiled tree, Schema.build orderDeclarations = .ok schema ∧
      orderSync.build orderShapes = .ok spec ∧
      (⟨schema, default, .exact⟩ : Compiler).compile spec = .ok compiled ∧
      compiled.plan.batch.length = 29 ∧ tree.Ordered ∧ compiled.plan.batch.WriteOrdered tree := by
  obtain ⟨schema, spec, compiled, hschema, hspec, hcompile, htest⟩ :
      ∃ schema spec compiled, Schema.build orderDeclarations = .ok schema ∧
        orderSync.build orderShapes = .ok spec ∧
        (⟨schema, default, .exact⟩ : Compiler).compile spec = .ok compiled ∧
        orderTest ⟨schema, default, .exact⟩ spec compiled = true :=
    exists_compiled (by decide +kernel)
  simp only [orderTest, Bool.and_eq_true, beq_iff_eq] at htest
  have hbuild : (CompilerSetup.mk (some schema) default (some .exact)).build =
      .ok ⟨schema, default, .exact⟩ := rfl
  obtain ⟨p, entity, tree, _, _, _, hordered, hbatch | ⟨_, name, columns, hole, hbatch⟩⟩ :=
    compile_writeOrdered hschema rfl hbuild hcompile (.inr (.inr htest.1))
  · exact ⟨schema, spec, compiled, tree, hschema, hspec, hcompile, htest.2, hordered, hbatch⟩
  · rw [hbatch] at htest
    cases htest.2

end Compiler

end ShapeSql
