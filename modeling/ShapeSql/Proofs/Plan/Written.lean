import ShapeSql.Proofs.Plan.Change
import ShapeSql.Proofs.Relation.Resolver

namespace ShapeSql

open Sql

/-- A table of the schema, with a sound link. -/
structure WrittenTable.Sound (s : Schema) (t : WrittenTable) : Prop where
  table : t.table ∈ s.tables
  link : ∀ link, t.link = some link → link.Sound s

namespace Planner

variable {p : Planner}

section Tables

/-- How a field is written: not at all where it is excluded or its type recurs, as a column of the table,
by the fields below it where its shape is embedded, or as a table of its own, which takes the next
number. -/
inductive Enters (p : Planner) (table : Table) (levels : List Path) (base : Path)
    (columns : List WrittenColumn) (field : Field) (kids : List FieldTree) (n : Nat) :
    List WrittenColumn × List WrittenTree → Nat → Prop
  | passed (hpassed : field.directives.exclude = true ∨ field.cyclic = true) :
    Enters p table levels base columns field kids n (columns, []) n
  | scalar {column : Column} (hscalar : field.isScalar = true)
      (hcolumn : p.resolver.column table field = .ok column) :
    Enters p table levels base columns field kids n
      (addWritten columns column (some (base.join field.name)), []) n
  | embedded {result : List WrittenColumn × List WrittenTree} {n' : Nat}
      (hshape : p.resolver.shapeTable field = .ok none)
      (hbelow : (p.writtenFields table levels (base.join field.name) columns kids).run n =
        .ok (result, n')) :
    Enters p table levels base columns field kids n result n'
  | table {target : Table} {link : Link} {own : List WrittenColumn} {below : List WrittenTree}
      {n' : Nat} (hshape : p.resolver.shapeTable field = .ok (some target))
      (hlink : p.resolver.link table target field.name field.isList field.path = .ok link)
      (hbelow : (p.writtenFields target (levels ++ [base.join field.name]) .root [] kids).run
        (n + 1) = .ok ((own, below), n')) :
    Enters p table levels base columns field kids n
      (columns, [.node ⟨n, target, some link, levels ++ [base.join field.name], own⟩ below]) n'

theorem enters_of_writtenField {table : Table} {levels : List Path} {base : Path}
    {columns : List WrittenColumn} {field : Field} {kids : List FieldTree} {n n' : Nat}
    {result : List WrittenColumn × List WrittenTree}
    (hrun : (p.writtenField table levels base columns (.node field kids)).run n =
      .ok (result, n')) :
    p.Enters table levels base columns field kids n result n' := by
  unfold writtenField at hrun
  split at hrun
  · rw [run_pure_ok] at hrun
    obtain ⟨rfl, rfl⟩ := hrun
    exact .passed (Or.inl ‹_›)
  · split at hrun
    · rw [run_throw_ok] at hrun
      exact hrun.elim
    · split at hrun
      · simp only [run_bind_ok, run_lift_ok, run_pure_ok] at hrun
        obtain ⟨column, _, ⟨hcolumn, rfl⟩, rfl, rfl⟩ := hrun
        exact .scalar ‹_› hcolumn
      · split at hrun
        · rw [run_pure_ok] at hrun
          obtain ⟨rfl, rfl⟩ := hrun
          exact .passed (Or.inr ‹_›)
        · simp only [run_bind_ok, run_lift_ok] at hrun
          obtain ⟨found, _, ⟨hshape, rfl⟩, hrest⟩ := hrun
          cases found with
          | none => exact .embedded hshape hrest
          | some target =>
            simp only [run_bind_ok, run_lift_ok, run_pure_ok, run_modifyGet_ok,
              Prod.mk.injEq] at hrest
            obtain ⟨link, _, ⟨hlink, rfl⟩, _, _, ⟨rfl, rfl⟩, ⟨own, below⟩, after, hbelow, rfl, rfl⟩ :=
              hrest
            exact .table hshape hlink hbelow

mutual

theorem writtenField_sound (hs : p.schema.Sound) :
    ∀ (t : FieldTree) {table : Table} {levels : List Path} {base : Path}
      {columns : List WrittenColumn} {n n' : Nat} {result : List WrittenColumn × List WrittenTree},
      table ∈ p.schema.tables →
      (p.writtenField table levels base columns t).run n = .ok (result, n') →
        ∀ w ∈ Tree.preorderAll result.2, w.Sound p.schema
  | .node field kids, table, levels, base, columns, n, n', result, htable, hrun => by
    cases enters_of_writtenField hrun with
    | passed => exact nofun
    | scalar => exact nofun
    | embedded _ hbelow => exact writtenFields_sound hs kids htable hbelow
    | table hshape hlink hbelow =>
      have htarget := Resolver.mem_of_shapeTable hshape
      intro w hw
      rw [Tree.preorderAll, Tree.preorder, Tree.preorderAll, List.append_nil] at hw
      rcases List.mem_cons.mp hw with rfl | hmem
      · refine ⟨htarget, ?_⟩
        intro other hother
        cases hother
        exact Resolver.link_sound hs htable htarget hlink
      · exact writtenFields_sound hs kids htarget hbelow w hmem

theorem writtenFields_sound (hs : p.schema.Sound) :
    ∀ (ts : List FieldTree) {table : Table} {levels : List Path} {base : Path}
      {columns : List WrittenColumn} {n n' : Nat} {result : List WrittenColumn × List WrittenTree},
      table ∈ p.schema.tables →
      (p.writtenFields table levels base columns ts).run n = .ok (result, n') →
        ∀ w ∈ Tree.preorderAll result.2, w.Sound p.schema
  | [], table, levels, base, columns, n, n', result, htable, hrun => by
    rw [writtenFields, run_pure_ok] at hrun
    obtain ⟨rfl, rfl⟩ := hrun
    exact nofun
  | t :: ts, table, levels, base, columns, n, n', result, htable, hrun => by
    simp only [writtenFields, run_bind_ok, run_pure_ok] at hrun
    obtain ⟨⟨columns, first⟩, between, hfirst, ⟨all, others⟩, after, hothers, rfl, rfl⟩ := hrun
    intro w hw
    rw [Tree.preorderAll_eq_flatMap, List.flatMap_append, ← Tree.preorderAll_eq_flatMap,
      ← Tree.preorderAll_eq_flatMap] at hw
    rcases List.mem_append.mp hw with hleft | hright
    · exact writtenField_sound hs t htable hfirst w hleft
    · exact writtenFields_sound hs ts htable hothers w hright

end

mutual

/-- Completing the columns of tables changes neither tables nor links. -/
theorem completed_sound (s : Schema) : ∀ t : WrittenTree, (∀ w ∈ t.preorder, w.Sound s) →
    ∀ w ∈ (p.completed t).preorder, w.Sound s
  | .node t kids, h => by
    intro w hw
    rw [completed, Tree.preorder] at hw
    rw [Tree.preorder] at h
    rcases List.mem_cons.mp hw with rfl | hmem
    · have ht := h t List.mem_cons_self
      exact ⟨ht.table, ht.link⟩
    · exact completedAll_sound s kids (fun w hw => h w (List.mem_cons_of_mem _ hw)) w hmem

theorem completedAll_sound (s : Schema) : ∀ ts : List WrittenTree,
    (∀ w ∈ Tree.preorderAll ts, w.Sound s) → ∀ w ∈ Tree.preorderAll (p.completedAll ts), w.Sound s
  | [], _ => nofun
  | t :: ts, h => by
    intro w hw
    rw [completedAll, Tree.preorderAll] at hw
    rw [Tree.preorderAll] at h
    rcases List.mem_append.mp hw with hleft | hright
    · exact completed_sound s t (fun w hw => h w (List.mem_append_left _ hw)) w hleft
    · exact completedAll_sound s ts (fun w hw => h w (List.mem_append_right _ hw)) w hright

end

theorem writtenTree_sound (hs : p.schema.Sound) (htable : p.table ∈ p.schema.tables)
    {entity : FieldTree} {tree : WrittenTree} (h : p.writtenTree entity = .ok tree) :
    ∀ w ∈ tree.preorder, w.Sound p.schema := by
  unfold writtenTree at h
  obtain ⟨⟨⟨columns, kids⟩, next⟩, hkids, h⟩ := except_bind_ok.mp h
  cases h
  apply completed_sound
  intro w hw
  rw [Tree.preorder] at hw
  rcases List.mem_cons.mp hw with rfl | hmem
  · exact ⟨htable, nofun⟩
  · exact writtenFields_sound hs entity.children htable hkids w hmem

end Tables

section Order

variable {P : WrittenTable → Prop}

mutual

theorem writeOrder_all : ∀ (t : WrittenTree) {above : List WrittenTable}, (∀ a ∈ above, P a) →
    (∀ w ∈ t.preorder, P w) → ∀ v ∈ writeOrder above t, v.All P
  | .node t kids, above, habove, h => by
    rw [Tree.preorder] at h
    have ht : P t := h t List.mem_cons_self
    have hkids : ∀ w ∈ Tree.preorderAll kids, P w := fun w hw => h w (List.mem_cons_of_mem _ hw)
    have hinner : ∀ a ∈ t :: above, P a := by
      intro a ha
      rcases List.mem_cons.mp ha with rfl | hmem
      · exact ht
      · exact habove a hmem
    intro v hv
    rw [writeOrder] at hv
    rcases List.mem_append.mp hv with hbefore | hafter
    · exact writeOrderWhere_all true kids hinner hkids v hbefore
    · rcases List.mem_cons.mp hafter with rfl | hafter
      · exact ⟨ht, habove, fun a ha => hkids a (Tree.label_mem_preorderAll ha)⟩
      · exact writeOrderWhere_all false kids hinner hkids v hafter

theorem writeOrderWhere_all (first : Bool) : ∀ (ts : List WrittenTree) {above : List WrittenTable},
    (∀ a ∈ above, P a) → (∀ w ∈ Tree.preorderAll ts, P w) →
      ∀ v ∈ writeOrderWhere first above ts, v.All P
  | [], _, _, _ => nofun
  | t :: ts, above, habove, h => by
    rw [Tree.preorderAll] at h
    have ht : ∀ w ∈ t.preorder, P w := fun w hw => h w (List.mem_append_left _ hw)
    have hts : ∀ w ∈ Tree.preorderAll ts, P w := fun w hw => h w (List.mem_append_right _ hw)
    intro v hv
    rw [writeOrderWhere] at hv
    split at hv
    · rcases List.mem_append.mp hv with hleft | hright
      · exact writeOrder_all t habove ht v hleft
      · exact writeOrderWhere_all first ts habove hts v hright
    · exact writeOrderWhere_all first ts habove hts v hv

end

end Order

/-- A nonempty list of columns makes an update that assigns. -/
theorem keepsAssignment_of_map {α : Type} {items : List α} (h : items ≠ []) (column : α → String)
    (value : α → Expr) (target : String) (source : Option Source) (filter : Option Expr)
    (rules : List HoleRule) :
    (Statement.update ⟨target, items.map fun a => .set (column a) (value a), source,
      filter⟩).KeepsAssignment rules := by
  obtain ⟨a, rest, rfl⟩ := List.exists_cons_of_ne_nil h
  exact Or.inl ⟨column a, value a, List.mem_cons_self⟩

theorem copiedKeys_keepsAssignment (rules : List HoleRule) {v : Tree.Visit WrittenTable}
    (hv : v.All (WrittenTable.Sound p.schema)) {st : Statement} (h : st ∈ p.copiedKeys v) :
    st.KeepsAssignment rules := by
  have hcopy : ∀ (t other : WrittenTable) (columns : List (ColumnId × ColumnId))
      (own others : String), columns ≠ [] →
        (t.copyKeys p.schema other columns own others).KeepsAssignment rules := by
    intro t other columns own others hcolumns
    exact keepsAssignment_of_map hcolumns _ _ _ _ _ rules
  rcases p.copiedKeys_cases h with
    ⟨parent, pairs, _, hlink, rfl⟩ | ⟨child, pairs, hchild, hlink, rfl⟩
  · apply hcopy
    rw [ne_eq, List.map_eq_nil_iff]
    exact hv.label.link _ hlink
  · apply hcopy
    rw [ne_eq, List.map_eq_nil_iff]
    exact (hv.children child hchild).link _ hlink

theorem writeTable_keepsAssignment (hs : p.schema.Sound) (rules : List HoleRule) {upsert : Bool}
    {v : Tree.Visit WrittenTable} (hv : v.All (WrittenTable.Sound p.schema)) {st : Statement}
    (h : st ∈ p.writeTable upsert v) : st.KeepsAssignment rules := by
  rcases p.writeTable_cases h with
    hcopied | rfl | ⟨hkey, rfl⟩ | hupdate | ⟨parent, junction, toParent, toChild, _, _, rfl⟩
  · exact copiedKeys_keepsAssignment rules hv hcopied
  · trivial
  · have hcolumns := (hs.laid _ hv.label.table).keyColumns_ne_nil hkey
    exact keepsAssignment_of_map hcolumns _ _ _ _ _ rules
  · exact keepsAssignment_of_updateRows hupdate rules
  · trivial

theorem removeStale_keepsAssignment (rules : List HoleRule) {v : Tree.Visit WrittenTable}
    {st : Statement} (h : st ∈ p.removeStale v) : st.KeepsAssignment rules := by
  obtain ⟨_, _, rfl⟩ := p.delete_of_removeStale h
  trivial

theorem WrittenBy.keepsAssignment (hs : p.schema.Sound) {tree : WrittenTree}
    (htree : ∀ w ∈ tree.preorder, w.Sound p.schema) {relations : Option Relations}
    {st : Statement} (h : p.WrittenBy tree relations st)
    (rules : List HoleRule) : st.KeepsAssignment rules := by
  cases h with
  | lookup _ | output _ => trivial
  | table hv hst =>
    exact writeTable_keepsAssignment hs rules (writeOrder_all tree nofun htree _ hv) hst
  | stale _ hst => exact removeStale_keepsAssignment rules hst
  | returned _ _ => trivial

theorem write_keepsAssignment (hs : p.schema.Sound) (htable : p.table ∈ p.schema.tables)
    {d d' : Draft} {batch : Batch} {relations : Option Relations}
    (hrun : p.write.run d = .ok ((batch, relations), d')) (rules : List HoleRule) :
    ∀ st ∈ batch, st.KeepsAssignment rules := by
  obtain ⟨entity, tree, _, htree, hplain | ⟨filled, hfilled, _, hbatch⟩⟩ := p.write_cases hrun
  · obtain ⟨names, _, _, hole, _, rfl⟩ := plainInsert_inv hplain
    intro st hst
    rw [List.mem_singleton.mp hst]
    trivial
  · have hsound := writtenTree_sound hs htable htree
    have hinserts : ∀ st ∈ filled, st.KeepsAssignment rules :=
      forall_of_run_mapM_ok (fun t st d d' h => keepsAssignment_of_fillLookup h rules) hfilled
    intro st hst
    rcases hbatch st hst with hmem | hwritten
    · exact hinserts st hmem
    · exact hwritten.keepsAssignment hs hsound rules

end Planner

end ShapeSql
