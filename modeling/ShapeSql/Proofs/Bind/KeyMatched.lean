import ShapeSql.Proofs.Bind.LookupRows
import ShapeSql.Proofs.Bind.Ignored
import ShapeSql.Proofs.Plan.Removals
import ShapeSql.Proofs.Sql.Conditions
import ShapeSql.Proofs.Sql.Literal

/-!
A delete of entities takes the rows that have the key of a listed entity, and no others. The condition is a
list for a key of one column, and a branch for each entity for a longer one; either way it is true for a row
exactly where one of the entities supplies all of the row's key, for a comparison with a null is never true.
Each value is bound under a name of its own, made of the place of the entity and that of the column.
-/

namespace ShapeSql

open Sql

/-- The cell and the value are both there, and equal. -/
def Sql.World.Equal (w : World) (cell own : Value) : Prop :=
  cell.isNull = false ∧ own.isNull = false ∧ w.dialect.compare .eq cell own = true

theorem Sql.World.equal_iff {w : World} {cell own : Value} :
    w.Equal cell own ↔ (w.compare .eq cell own).holds = true := by
  rw [World.holds_compare]
  simp [World.Equal, and_assoc]

section KeyMatch

variable {w : World} {env : Env} {f : HoleFiller}

/-- Parameters have the values that they are brought with. -/
def Brings (params : Params) (added : List (String × Value)) : Prop :=
  ∀ m ∈ added, params.getExact? m.1 = some m.2

theorem KeyCell.holds_equality (cell : KeyCell) (h : w.params.getExact? cell.param = some cell.value) :
    (cell.equality.filled f).holds w env = true ↔
      w.Equal ((cell.column.filled f).value w env) cell.value := by
  rw [KeyCell.equality, Expr.eq, Expr.filled, Expr.filled, Expr.holds_compare, value_param h,
    World.equal_iff]

/-- An entity with a key has a branch, which asks for the whole key. -/
theorem allOf?_equality {cells : List KeyCell} (h : cells ≠ []) :
    Expr.allOf? (cells.map KeyCell.equality) = some (.allOf (cells.map KeyCell.equality)) := by
  have hflat : (cells.map KeyCell.equality).flatMap Expr.conjuncts = cells.map KeyCell.equality := by
    rw [List.flatMap_map]
    exact List.map_eq_flatMap.symm
  rw [Expr.allOf, Expr.allOf?, hflat]
  rcases cells with _ | ⟨first, _ | ⟨second, rest⟩⟩
  · exact absurd rfl h
  · rfl
  · rfl

theorem branches_eq {cells : List (List KeyCell)} (h : ∀ entity ∈ cells, entity ≠ []) :
    cells.filterMap (fun entity => (Expr.allOf? (entity.map KeyCell.equality)).map Expr.group) =
      cells.map fun entity => Expr.group (.allOf (entity.map KeyCell.equality)) := by
  refine (List.filterMap_congr fun entity hentity => ?_).trans (congrFun List.filterMap_eq_map' cells)
  rw [allOf?_equality (h entity hentity)]
  rfl

theorem holds_keyBranches (hdiscerns : w.dialect.Discerns) {cells : List (List KeyCell)}
    (hcells : ∀ entity ∈ cells, entity ≠ [])
    (hparams : ∀ entity ∈ cells, Brings w.params (entity.map KeyCell.binding)) {e : Expr}
    (he : (keyBranches cells).fragment = .expr e) :
    (e.filled f).holds w env = true ↔
      ∃ entity ∈ cells, ∀ cell ∈ entity, w.Equal ((cell.column.filled f).value w env) cell.value := by
  obtain rfl := Fragment.expr.inj he
  rw [branches_eq hcells, Expr.holds_anyOf hdiscerns, List.any_map, List.any_eq_true]
  refine exists_congr fun entity => and_congr_right fun hentity => ?_
  rw [Function.comp_apply, Expr.filled, Expr.holds_group, Expr.holds_allOf, List.all_map, List.all_eq_true]
  refine forall₂_congr fun cell hcell => ?_
  exact cell.holds_equality (hparams entity hentity _ (List.mem_map_of_mem hcell))

/-- Of a list of parameters the values are compared, each under the place of its own. -/
theorem holds_keyList {added : List (String × Value)} (hparams : Brings w.params added) (column : Expr) :
    ((Expr.inList column (added.map fun m => .param m.1) false).filled f).holds w env = true ↔
      ∃ m ∈ added, w.Equal ((column.filled f).value w env) m.2 := by
  rw [Expr.filled, exprsFilled_eq, List.map_map, Expr.holds_inList, List.any_map, List.any_eq_true]
  refine exists_congr fun m => and_congr_right fun hm => ?_
  rw [Function.comp_apply, Function.comp_apply, Expr.filled, value_param (hparams m hm), World.equal_iff]

theorem mem_iff_zipIdx {α : Type} {items : List α} {item : α} :
    item ∈ items ↔ ∃ place, (item, place) ∈ items.zipIdx := by
  rw [← List.zipIdx_map_fst 0 items, List.mem_map, List.zipIdx_map_fst]
  exact ⟨fun ⟨⟨_, place⟩, hentry, rfl⟩ => ⟨place, hentry⟩, fun ⟨place, hentry⟩ => ⟨_, hentry, rfl⟩⟩

/-- What is made of an item and its place is there for all items. -/
theorem exists_mem_map_zipIdx {α β : Type} {items : List α} {g : α × Nat → β} {P : β → Prop}
    {Q : α → Prop} (h : ∀ item place, P (g (item, place)) ↔ Q item) :
    (∃ b ∈ items.zipIdx.map g, P b) ↔ ∃ item ∈ items, Q item := by
  constructor
  · rintro ⟨_, hb, hP⟩
    obtain ⟨⟨item, place⟩, hentry, rfl⟩ := List.mem_map.mp hb
    exact ⟨item, mem_iff_zipIdx.mpr ⟨place, hentry⟩, (h item place).mp hP⟩
  · rintro ⟨item, hitem, hQ⟩
    obtain ⟨place, hentry⟩ := mem_iff_zipIdx.mp hitem
    exact ⟨_, List.mem_map_of_mem hentry, (h item place).mpr hQ⟩

theorem forall_mem_map_zipIdx {α β : Type} {items : List α} {g : α × Nat → β} {P : β → Prop}
    {Q : α → Prop} (h : ∀ item place, P (g (item, place)) ↔ Q item) :
    (∀ b ∈ items.zipIdx.map g, P b) ↔ ∀ item ∈ items, Q item := by
  have hnone := @exists_mem_map_zipIdx _ _ items g (fun b => ¬P b) (fun a => ¬Q a)
    fun item place => not_congr (h item place)
  simpa only [not_exists, not_and, not_not] using not_congr hnone

theorem listedCells_ne_nil {columns : List (Expr × Path)} (hkey : columns ≠ []) {base : String}
    {value : Value} : ∀ cells ∈ listedCells columns base value, cells ≠ [] :=
  forall_mem_map_zipIdx (Q := fun _ => columns ≠ []) (fun _ _ => by simp [keyCells]) |>.mpr
    fun _ _ => hkey

theorem holds_listedCells (hdiscerns : w.dialect.Discerns) {columns : List (Expr × Path)}
    (hkey : columns ≠ []) {base : String} {value : Value}
    (hparams : Brings w.params (keyBranches (listedCells columns base value)).added) {e : Expr}
    (he : (keyBranches (listedCells columns base value)).fragment = .expr e) :
    (e.filled f).holds w env = true ↔ ∃ entity ∈ value.presentItems, ∀ key ∈ columns,
      w.Equal ((key.1.filled f).value w env) (entity.entry key.2) := by
  have hbrings : ∀ cells ∈ listedCells columns base value,
      Brings w.params (cells.map KeyCell.binding) :=
    fun cells hcells m hm => hparams m (List.mem_flatMap.mpr ⟨cells, hcells, hm⟩)
  rw [holds_keyBranches hdiscerns (listedCells_ne_nil hkey) hbrings he]
  exact exists_mem_map_zipIdx fun entity place => forall_mem_map_zipIdx fun key column => Iff.rfl

theorem exists_keyMatch (columns : List (Expr × Path)) (base : String) (value : Value) :
    ∃ e, keyMatch columns base value = ⟨.expr e, (keyMatch columns base value).added, []⟩ := by
  rcases keyMatch_cases columns base value with ⟨_, hmatch⟩ | ⟨_, _, _, _, hmatch⟩ | hmatch
  all_goals rw [hmatch]; exact ⟨_, rfl⟩

/-- The condition is true exactly where a listed entity has the key of the row. -/
theorem holds_keyMatch (hdiscerns : w.dialect.Discerns) {columns : List (Expr × Path)} (hkey : columns ≠ [])
    {base : String} {value : Value} (hparams : Brings w.params (keyMatch columns base value).added)
    {e : Expr} (he : (keyMatch columns base value).fragment = .expr e) :
    (e.filled f).holds w env = true ↔ ∃ entity ∈ value.presentItems, ∀ key ∈ columns,
      w.Equal ((key.1.filled f).value w env) (entity.entry key.2) := by
  rcases keyMatch_cases columns base value with
    ⟨hnone, hmatch⟩ | ⟨column, field, rfl, _, hmatch⟩ | hmatch
  · rw [hmatch] at he
    obtain rfl := Fragment.expr.inj he
    rw [Expr.filled_contradiction, Expr.holds_contradiction hdiscerns, hnone]
    simp
  · rw [hmatch] at he hparams
    obtain rfl := Fragment.expr.inj he
    rw [holds_keyList hparams]
    exact exists_mem_map_zipIdx fun entity place => by rw [List.forall_mem_singleton]
  · rw [hmatch] at he hparams
    exact holds_listedCells hdiscerns hkey hparams he

section Closed

theorem filled_keyBranches {cells : List (List KeyCell)} (hcells : ∀ entity ∈ cells, entity ≠ [])
    (h : ∀ entity ∈ cells, ∀ cell ∈ entity, cell.column.filled f = cell.column) {e : Expr}
    (he : (keyBranches cells).fragment = .expr e) : e.filled f = e := by
  obtain rfl := Fragment.expr.inj he
  rw [branches_eq hcells]
  refine Expr.filled_anyOf (List.forall_mem_map.mpr fun _ _ => rfl) (List.forall_mem_map.mpr ?_)
  intro entity hentity
  have hequalities : ∀ cell ∈ entity, cell.equality.filled f = cell.equality := by
    intro cell hcell
    rw [KeyCell.equality, Expr.eq, Expr.filled, Expr.filled, h entity hentity cell hcell]
  rw [Expr.filled, Expr.filled_allOf (List.forall_mem_map.mpr fun _ _ => rfl)
    (List.forall_mem_map.mpr hequalities)]

theorem filled_listedCells {columns : List (Expr × Path)} (hkey : columns ≠ [])
    (h : ∀ key ∈ columns, key.1.filled f = key.1) {base : String} {value : Value} {e : Expr}
    (he : (keyBranches (listedCells columns base value)).fragment = .expr e) : e.filled f = e := by
  refine filled_keyBranches (listedCells_ne_nil hkey) ?_ he
  refine forall_mem_map_zipIdx (fun _ _ => ?_) |>.mpr fun _ _ => h
  exact forall_mem_map_zipIdx fun key column => Iff.rfl

/-- The condition has the holes of the columns, and no others. -/
theorem filled_keyMatch {columns : List (Expr × Path)} (hkey : columns ≠ [])
    (h : ∀ key ∈ columns, key.1.filled f = key.1) {base : String} {value : Value} {e : Expr}
    (he : (keyMatch columns base value).fragment = .expr e) : e.filled f = e := by
  rcases keyMatch_cases columns base value with
    ⟨hnone, hmatch⟩ | ⟨column, field, rfl, _, hmatch⟩ | hmatch
  · rw [hmatch] at he
    obtain rfl := Fragment.expr.inj he
    exact Expr.filled_contradiction
  · rw [hmatch] at he
    obtain rfl := Fragment.expr.inj he
    rw [Expr.filled, h _ List.mem_cons_self,
      Expr.exprsFilled_self (List.forall_mem_map.mpr fun m _ => by rw [Expr.filled])]
  · rw [hmatch] at he
    exact filled_listedCells hkey h he

end Closed

end KeyMatch

section Names

/-- A name of an item tells the base, up to case, and the number. -/
theorem itemName_inj {base base' : String} {i j : Nat}
    (h : sameName (itemName base i) (itemName base' j) = true) : sameName base base' = true ∧ i = j := by
  rw [sameName, beq_iff_eq] at h
  have htexts := congrArg String.toList h
  rw [Names.toList_itemName, Names.toList_itemName] at htexts
  obtain ⟨hbases, hnumbers⟩ := append_digits_inj (by decide) htexts
  exact ⟨beq_iff_eq.mpr (String.toList_injective hbases), hnumbers⟩

theorem itemName_apart {base base' : String} {i j : Nat} (h : i ≠ j ∨ sameName base base' = false) :
    sameName (itemName base i) (itemName base' j) = false := by
  rw [Bool.eq_false_iff]
  intro hsame
  obtain ⟨hbases, hnumbers⟩ := itemName_inj hsame
  rcases h with hdiffer | hdiffer
  · exact hdiffer hnumbers
  · rw [hbases] at hdiffer
    cases hdiffer

theorem listedCells_apart (columns : List (Expr × Path)) (base : String) (value : Value) :
    (keyBranches (listedCells columns base value)).added.Pairwise
      fun m n => sameName m.1 n.1 = false := by
  refine List.pairwise_flatMap.mpr ⟨fun cells hcells => ?_, ?_⟩
  · obtain ⟨entry, _, rfl⟩ := List.mem_map.mp hcells
    refine List.pairwise_map.mpr (List.pairwise_map.mpr ((zipIdx_apart _).imp fun hplaces => ?_))
    exact itemName_apart (.inl hplaces)
  · refine List.pairwise_map.mpr ((zipIdx_apart _).imp fun hplaces m hm n hn => ?_)
    obtain ⟨_, hcell, rfl⟩ := List.mem_map.mp hm
    obtain ⟨_, _, rfl⟩ := List.mem_map.mp hcell
    obtain ⟨_, hcell, rfl⟩ := List.mem_map.mp hn
    obtain ⟨_, _, rfl⟩ := List.mem_map.mp hcell
    exact itemName_apart (.inr (itemName_apart (.inl hplaces)))

/-- No two of the parameters have one name. -/
theorem keyMatch_apart (columns : List (Expr × Path)) (base : String) (value : Value) :
    (keyMatch columns base value).added.Pairwise fun m n => sameName m.1 n.1 = false := by
  rcases keyMatch_cases columns base value with ⟨_, hmatch⟩ | ⟨column, field, _, _, hmatch⟩ | hmatch
  · rw [hmatch]
    exact .nil
  · rw [hmatch]
    exact List.pairwise_map.mpr ((zipIdx_apart _).imp fun hplaces => itemName_apart (.inl hplaces))
  · rw [hmatch]
    exact listedCells_apart columns base value

variable {added : List (String × Value)}

theorem nodup_of_apart (h : added.Pairwise fun m n => sameName m.1 n.1 = false) :
    (added.map Prod.fst).Nodup := by
  refine List.pairwise_map.mpr (h.imp fun hapart hsame => ?_)
  rw [hsame, sameName_self] at hapart
  cases hapart

theorem Binding.append_nil (h : (added.map Prod.fst).Nodup) : append [] added = .ok added :=
  append_ok h fun _ _ => List.not_mem_nil

/-- Parameters under different names have the values that they are brought with. -/
theorem brings_self (h : added.Pairwise fun m n => sameName m.1 n.1 = false) : Brings added added :=
  (Binding.append_finds (Binding.append_nil (nodup_of_apart h))).2

end Names

section Planned

namespace Planner

variable {p : Planner} {entity : FieldTree}

/-- The key columns, each with the field that supplies it. -/
theorem keyFields_cases {columns : List (Expr × Path)} (h : p.keyFields entity = .ok columns) :
    p.table.hasKey = true ∧ List.Forall₂ (fun column key =>
      p.keyField? entity column = some key.2 ∧ key.1 = .columnOf p.table.name column.name)
        p.table.keyColumns columns := by
  unfold keyFields at h
  split at h
  · cases h
  · rename_i hkey
    refine ⟨by simpa using hkey, (forall₂_of_mapM_ok h).imp fun column key hcolumn => ?_⟩
    split at hcolumn
    · rename_i field hfield
      cases hcolumn
      exact ⟨hfield, rfl⟩
    · cases hcolumn

/-- A delete of entities has one rule, which matches their keys. -/
theorem delete_keyed {d d' : Draft} {batch : Batch} (hentity : p.deletedEntity = .ok (some entity))
    (hrun : p.delete.run d = .ok (batch, d')) :
    ∃ columns base hole, p.keyFields entity = .ok columns ∧
      batch = [.delete (.table p.table.name none) (some (.hole hole))] ∧
      d'.rules = d.rules ++ [⟨hole, entity.label.path, .keyMatch columns base⟩] ∧
      d'.params = d.params := by
  simp only [delete, run_bind_ok, run_lift_ok] at hrun
  obtain ⟨found, _, ⟨hfound, rfl⟩, hrest⟩ := hrun
  rw [hentity] at hfound
  cases hfound
  simp only [keyMatch, run_bind_ok, run_lift_ok, run_pure_ok] at hrest
  obtain ⟨_, _, ⟨columns, _, ⟨hcolumns, rfl⟩, base, between, hbase, hole, after, hhole, rfl, rfl⟩, _, _,
    ⟨rfl, rfl⟩, rfl, rfl⟩ := hrest
  cases hbase
  cases hhole
  exact ⟨columns, _, _, hcolumns, rfl, rfl, rfl⟩

end Planner

/-- A plan with the one rule is bound to the condition and the parameters that it brings. -/
theorem Plan.substitution_keyed {plan : Plan} {hole : HoleId} {path : Path}
    {columns : List (Expr × Path)} {base : String}
    (hrules : plan.rules = [⟨hole, path, .keyMatch columns base⟩]) (hparams : plan.params = [])
    (s : Schema) (args : Value) :
    plan.substitution s args = .ok (⟨[(hole, (keyMatch columns base (args.entry path)).fragment)]⟩,
      (keyMatch columns base (args.entry path)).added) := by
  have hnodup := nodup_of_apart (keyMatch_apart columns base (args.entry path))
  have hadded : (keyMatch columns base (args.entry path)).added.foldl
      (fun params m => Record.insert params m.1 m.2) [] =
        (keyMatch columns base (args.entry path)).added := Record.ofMembers_of_nodup hnodup
  have hbinding : Binding.ofRules s plan.rules args = .ok
      ⟨⟨[(hole, (keyMatch columns base (args.entry path)).fragment)]⟩,
        (keyMatch columns base (args.entry path)).added.foldl
          (fun params m => Record.insert params m.1 m.2) [],
        (keyMatch columns base (args.entry path)).removed ++ [], none⟩ := by
    rw [hrules]
    rfl
  rw [substitution, hbinding, hparams, hadded]
  show (faulty (Binding.append [] (keyMatch columns base (args.entry path)).added) >>= _) = _
  rw [Binding.append_nil hnodup]
  rfl

/-- The row has the key of the entity: for every key column the entity supplies what the row has. -/
def Planner.Identifies (p : Planner) (w : World) (entity : FieldTree) (listed : Value) (row : Row) : Prop :=
  ∀ column ∈ p.table.keyColumns, ∃ field, p.keyField? entity column = some field ∧
    w.Equal (row.cell column.name) (listed.entry field)

theorem Planner.filled_keyFields {p : Planner} {entity : FieldTree} {columns : List (Expr × Path)}
    (h : p.keyFields entity = .ok columns) {f : HoleFiller} : ∀ key ∈ columns, key.1.filled f = key.1 := by
  intro key hmem
  obtain ⟨i, hi, rfl⟩ := List.getElem_of_mem hmem
  obtain ⟨hlength, hfields⟩ := List.forall₂_iff_get.mp (p.keyFields_cases h).2
  have hfirst := (hfields i (hlength ▸ hi) hi).2
  rw [List.get_eq_getElem, List.get_eq_getElem] at hfirst
  rw [hfirst, Expr.columnOf, Expr.filled]

theorem Planner.identifies_iff {p : Planner} {entity : FieldTree} {columns : List (Expr × Path)}
    (h : p.keyFields entity = .ok columns) {w : World} {f : HoleFiller} {listed : Value} {row : Row} :
    (∀ key ∈ columns, w.Equal ((key.1.filled f).value w [[(p.table.name, row)]]) (listed.entry key.2)) ↔
      p.Identifies w entity listed row := by
  have hcell : ∀ name, ((Expr.columnOf p.table.name name).filled f).value w [[(p.table.name, row)]] =
      row.cell name := by
    intro name
    rw [Expr.columnOf, Expr.filled, Expr.value]
    exact Env.cell_of_row? (Tuple.row?_cons_self _ row []) name
  obtain ⟨_, hfields⟩ := p.keyFields_cases h
  clear h
  unfold Identifies
  generalize p.table.keyColumns = key at hfields ⊢
  induction hfields with
  | nil => exact ⟨fun _ => List.forall_mem_nil _, fun _ => List.forall_mem_nil _⟩
  | @cons column entry _ _ hfirst _ ih =>
    obtain ⟨expr, field⟩ := entry
    obtain ⟨hfield, rfl⟩ := hfirst
    refine List.forall_mem_cons.trans (Iff.trans (and_congr ?_ ih) List.forall_mem_cons.symm)
    rw [hcell, hfield]
    simp

/-- A DELETE takes from its table the rows for which the condition is true. -/
theorem Sql.World.mem_deleting {w : World} {table : String} {filter : Expr} {name : String} {row : Row} :
    row ∈ (w.deleting (.delete (.table table none) (some filter))).database.tables name ↔
      row ∈ w.database.tables name ∧
        ¬(name = table ∧ filter.holds w [[(table, row)]] = true) := by
  have hkept : row ∈ (w.deleting (.delete (.table table none) (some filter))).database.tables name ↔
      row ∈ w.database.tables name ∧ (name != table || !filter.holds w [[(table, row)]]) = true :=
    List.mem_filter
  rw [hkept, Bool.or_eq_true, bne_iff_ne, Bool.not_eq_true', Decidable.not_and_iff_not_or_not,
    Bool.not_eq_true]

/-- A statement with a substitution is written out. -/
theorem Plan.Sound.bind_of_substitution {plan : Plan} (hplan : plan.Sound) {s : Schema} {args : Value}
    (hkeeps : ∀ st ∈ plan.batch, st.KeepsAssignment plan.rules)
    (hargs : args.isNull = true ∨ args.isRecord = true) {subs : Substitution} {params : Params}
    (hsubs : plan.substitution s args = .ok (subs, params)) :
    ∃ sql, plan.bind s args = .ok ⟨sql, params⟩ := by
  have hrecord : ¬(!args.isNull && !args.isRecord) = true := by
    rcases hargs with h | h <;> simp [h]
  obtain ⟨b, _, hb, hassigned, _, _, rfl, rfl⟩ := Plan.binds_of_substitution hplan hsubs
  obtain ⟨sql, hsql⟩ := hplan.render_ok hkeeps hb hassigned
  refine ⟨sql, ?_⟩
  rw [Plan.bind, if_neg hrecord, hsubs]
  show (faulty (plan.batch.render b.subs) >>= _) = _
  rw [hsql]
  rfl

/-- A delete with the one rule is bound to any arguments, with the condition in place of its hole. -/
theorem Compiled.bind_keyed {compiled : Compiled} (hsound : compiled.plan.Sound) {table : String}
    {hole : HoleId} {path : Path} {columns : List (Expr × Path)} {base : String}
    (hbatch : compiled.plan.batch = [.delete (.table table none) (some (.hole hole))])
    (hrules : compiled.plan.rules = [⟨hole, path, .keyMatch columns base⟩])
    (hparams : compiled.plan.params = []) (hkey : columns ≠ [])
    (hclosed : ∀ f : HoleFiller, ∀ key ∈ columns, key.1.filled f = key.1) {args : Value}
    (hargs : args.isNull = true ∨ args.isRecord = true) :
    ∃ sql e, keyMatch columns base (args.entry path) =
        ⟨.expr e, (keyMatch columns base (args.entry path)).added, []⟩ ∧
      compiled.bind args = .ok ⟨sql, (keyMatch columns base (args.entry path)).added⟩ ∧
      compiled.resolved args = .ok [.delete (.table table none) (some e)] ∧
      Batch.render [.delete (.table table none) (some e)] .empty = .ok sql := by
  obtain ⟨e, hmatch⟩ := exists_keyMatch columns base (args.entry path)
  have hfragment : (keyMatch columns base (args.entry path)).fragment = .expr e := by rw [hmatch]
  have hsubs := Plan.substitution_keyed hrules hparams compiled.schema args
  rw [hfragment] at hsubs
  have hkeeps : ∀ st ∈ compiled.plan.batch, st.KeepsAssignment compiled.plan.rules := by
    rw [hbatch]
    exact List.forall_mem_singleton.mpr trivial
  obtain ⟨sql, hbind⟩ := hsound.bind_of_substitution hkeeps hargs hsubs
  have hfound : (⟨[(hole, .expr e)]⟩ : Substitution).find? hole = some (.expr e) := by
    simp [Substitution.find?]
  obtain ⟨inner, hexpr⟩ := HoleFiller.ofSubstitution_expr hfound
  have hfilled : compiled.plan.batch.filled ⟨[(hole, .expr e)]⟩ =
      [.delete (.table table none) (some e)] := by
    rw [hbatch, Batch.filled, List.map_singleton, Statement.filled, Factor.filled, optionalFilled,
      Expr.filled, hexpr, filled_keyMatch hkey (hclosed inner) hfragment]
  obtain ⟨subs, _, batch, hsame, hresolved, rfl, hrender⟩ := Compiled.resolved_of_bind hbind
  obtain rfl : subs = ⟨[(hole, .expr e)]⟩ := by
    rw [hsubs] at hsame
    exact (Prod.mk.inj (Except.ok.inj hsame)).1.symm
  rw [hfilled] at hresolved hrender
  exact ⟨sql, e, hmatch, hbind, hresolved, hrender⟩

end Planned

namespace Compiler

variable {c : Compiler} {spec : QuerySpec} {compiled : Compiled}
  {declarations : List TableDeclaration} {schema : Schema} {setup : CompilerSetup}

/-- A delete of entities is planned as one statement with one rule, for the key of its table. -/
theorem keyed_of_compile (hschema : Schema.build declarations = .ok schema)
    (hsetup : setup.schema = some schema) (hbuild : setup.build = .ok c)
    (hcompile : c.compile spec = .ok compiled) (hdelete : spec.operation = .delete) {p : Planner}
    (hp : Plan.PlannedBy c.resolver c.options.keyWindowAlias spec p) {entity : FieldTree}
    (hentity : p.deletedEntity = .ok (some entity)) :
    ∃ columns base hole, p.keyFields entity = .ok columns ∧ columns ≠ [] ∧
      compiled.plan.batch = [.delete (.table p.table.name none) (some (.hole hole))] ∧
      compiled.plan.rules = [⟨hole, entity.label.path, .keyMatch columns base⟩] ∧
      compiled.plan.params = [] := by
  obtain ⟨q, d, hq, hrun, hrules, hparams, _, hsound, _, htable⟩ :=
    planner_of_compile hschema hsetup hbuild hcompile
  obtain rfl : q = p := (hq.eq hp.target hp.arguments).trans (hp.eq hp.target hp.arguments).symm
  have hoperation : q.operation = .delete := hq.operation.trans hdelete
  obtain ⟨columns, base, hole, hcolumns, hbatch, hrule, hparam⟩ :=
    Planner.delete_keyed hentity (Planner.delete_of_statements hrun hoperation).1
  refine ⟨columns, base, hole, hcolumns, ?_, hbatch, hrules.trans hrule, hparams.trans hparam⟩
  obtain ⟨hhas, hfields⟩ := q.keyFields_cases hcolumns
  rintro rfl
  exact (hsound.laid _ htable).keyColumns_ne_nil hhas (List.forall₂_nil_right_iff.mp hfields)

/-- A delete of entities is bound to any arguments, with parameters of different names. Its condition is
true for the rows that have the key of a listed entity, and for no other row; a key of one column has the
meaning that it has with a branch for each entity, and where no entity is listed no row is found. What the
statement deletes from the tables are these rows. -/
theorem bind_deletesListed (hschema : Schema.build declarations = .ok schema)
    (hsetup : setup.schema = some schema) (hbuild : setup.build = .ok c)
    (hcompile : c.compile spec = .ok compiled) (hdelete : spec.operation = .delete) {p : Planner}
    (hp : Plan.PlannedBy c.resolver c.options.keyWindowAlias spec p) {entity : FieldTree}
    (hentity : p.deletedEntity = .ok (some entity)) {args value : Value}
    (hargs : args.isNull = true ∨ args.isRecord = true) (hvalue : args.entry entity.label.path = value) :
    ∃ bound columns base e, compiled.bind args = .ok bound ∧ p.keyFields entity = .ok columns ∧
      columns ≠ [] ∧ keyMatch columns base value = ⟨.expr e, bound.params, []⟩ ∧
      compiled.resolved args = .ok [.delete (.table p.table.name none) (some e)] ∧
      Batch.render [.delete (.table p.table.name none) (some e)] .empty = .ok bound.sql ∧
      (bound.params.Pairwise fun m n => sameName m.1 n.1 = false) ∧
      ∀ w : World, w.dialect.Discerns → w.params = bound.params →
        (∀ row, e.holds w [[(p.table.name, row)]] = true ↔
          ∃ listed ∈ value.presentItems, p.Identifies w entity listed row) ∧
        (∀ branches row, (keyBranches (listedCells columns base value)).fragment = .expr branches →
          branches.holds { w with params := (keyBranches (listedCells columns base value)).added }
            [[(p.table.name, row)]] = e.holds w [[(p.table.name, row)]]) ∧
        (value.presentItems = [] → ∀ row, e.holds w [[(p.table.name, row)]] = false) ∧
        ∀ name row, row ∈ (w.afterDeletes
            [.delete (.table p.table.name none) (some e)]).database.tables name ↔
          row ∈ w.database.tables name ∧ ¬(name = p.table.name ∧
            ∃ listed ∈ value.presentItems, p.Identifies w entity listed row) := by
  subst hvalue
  obtain ⟨columns, base, hole, hcolumns, hkey, hbatch, hrules, hparams⟩ :=
    keyed_of_compile hschema hsetup hbuild hcompile hdelete hp hentity
  have hclosed : ∀ f : HoleFiller, ∀ key ∈ columns, key.1.filled f = key.1 :=
    fun f => Planner.filled_keyFields hcolumns
  have hsound := Plan.ofSpec_sound (ofSpec_of_compile hcompile).2
  obtain ⟨sql, e, hmatch, hbind, hresolved, hrender⟩ :=
    Compiled.bind_keyed hsound hbatch hrules hparams hkey hclosed hargs
  have hapart := keyMatch_apart columns base (args.entry entity.label.path)
  refine ⟨_, columns, base, e, hbind, hcolumns, hkey, hmatch, hresolved, hrender, hapart,
    fun w hdiscerns hparams => ?_⟩
  have hfragment : (keyMatch columns base (args.entry entity.label.path)).fragment = .expr e := by
    rw [hmatch]
  have hholds : ∀ row, e.holds w [[(p.table.name, row)]] = true ↔
      ∃ listed ∈ (args.entry entity.label.path).presentItems, p.Identifies w entity listed row := by
    intro row
    rw [← filled_keyMatch hkey (hclosed .keeping) hfragment,
      holds_keyMatch hdiscerns hkey (hparams ▸ brings_self hapart) hfragment]
    exact exists_congr fun listed => and_congr_right fun _ => Planner.identifies_iff hcolumns
  refine ⟨hholds, fun branches row hbranches => ?_, fun hnone row => ?_, fun name row => ?_⟩
  · let cells := listedCells columns base (args.entry entity.label.path)
    let branched : World := { w with params := (keyBranches cells).added }
    have hbranched : Brings branched.params (keyBranches cells).added :=
      brings_self (listedCells_apart columns base _)
    rw [Bool.eq_iff_iff, hholds row, ← filled_listedCells hkey (hclosed .keeping) hbranches,
      holds_listedCells (w := branched) hdiscerns hkey hbranched hbranches]
    exact exists_congr fun listed => and_congr_right fun _ => Planner.identifies_iff hcolumns
  · rw [Bool.eq_false_iff, ne_eq, hholds row, hnone]
    exact fun ⟨_, hmem, _⟩ => List.not_mem_nil hmem
  · rw [← hholds row]
    exact World.mem_deleting

/-- The tags of orders, by the numbers of both. -/
def orderTagShapes : Shapes := .ofList [
  ⟨"OrderTag", none, [⟨"OrderId", .i32, false, default⟩, ⟨"TagId", .i32, false, default⟩]⟩]

/-- Takes tags away from orders. -/
def orderTagDelete : SpecDeclaration where
  operation := .delete
  table := some "OrderTag"
  arguments := [⟨"links", .list (.shape "OrderTag"), false, default⟩]
  returns := []

/-- One tag of an order, a null, and an order without a tag. -/
def orderTagArguments : Value :=
  .record [("links", .list [.record [("OrderId", .i32 1), ("TagId", .i32 2)], .null,
    .record [("OrderId", .i32 3), ("TagId", .null)]])]

/-- The argument is shaped like the table. -/
def orderTagTest (c : Compiler) (spec : QuerySpec) (_ : Compiled) : Bool :=
  spec.operation == .delete &&
  (Plan.targetTable c.resolver spec).toOption.any fun table =>
    (Arguments.classify spec.operation spec.arguments.children).toOption.any fun arguments =>
      let p : Planner := ⟨c.resolver, c.options.keyWindowAlias, table, spec.operation, spec.output,
        spec.outputKind, arguments⟩
      p.deletedEntity.toOption.any Option.isSome

/-- The tags that are deleted are those listed. -/
theorem bind_deletesListed_orderTag :
    ∃ schema spec compiled p entity bound e, Schema.build orderDeclarations = .ok schema ∧
      orderTagDelete.build orderTagShapes = .ok spec ∧
      (⟨schema, default, .exact⟩ : Compiler).compile spec = .ok compiled ∧
      Plan.PlannedBy (Compiler.resolver ⟨schema, default, .exact⟩)
        (default : CompilerOptions).keyWindowAlias spec p ∧
      p.deletedEntity = .ok (some entity) ∧ compiled.bind orderTagArguments = .ok bound ∧
      compiled.resolved orderTagArguments = .ok [.delete (.table p.table.name none) (some e)] ∧
      ∀ w : World, w.dialect = .literal → w.params = bound.params → ∀ name row,
        row ∈ (w.afterDeletes
            [.delete (.table p.table.name none) (some e)]).database.tables name ↔
          row ∈ w.database.tables name ∧ ¬(name = p.table.name ∧
            ∃ listed ∈ (orderTagArguments.entry entity.label.path).presentItems,
              p.Identifies w entity listed row) := by
  obtain ⟨schema, spec, compiled, hschema, hspec, hcompile, htest⟩ :
      ∃ schema spec compiled, Schema.build orderDeclarations = .ok schema ∧
        orderTagDelete.build orderTagShapes = .ok spec ∧
        (⟨schema, default, .exact⟩ : Compiler).compile spec = .ok compiled ∧
        orderTagTest ⟨schema, default, .exact⟩ spec compiled = true :=
    exists_compiled (by decide +kernel)
  simp only [orderTagTest, Bool.and_eq_true, beq_iff_eq] at htest
  obtain ⟨hdelete, htargets⟩ := htest
  obtain ⟨table, htable, hclassifies⟩ := exists_ok_of_any htargets
  obtain ⟨arguments, harguments, hentities⟩ := exists_ok_of_any hclassifies
  obtain ⟨found, hfound, hsome⟩ := exists_ok_of_any hentities
  obtain ⟨entity, rfl⟩ := Option.isSome_iff_exists.mp hsome
  have hbuild : (CompilerSetup.mk (some schema) default (some .exact)).build =
      .ok ⟨schema, default, .exact⟩ := rfl
  have hp : Plan.PlannedBy (Compiler.resolver ⟨schema, default, .exact⟩)
      (default : CompilerOptions).keyWindowAlias spec
      ⟨_, _, table, spec.operation, spec.output, spec.outputKind, arguments⟩ :=
    ⟨rfl, rfl, htable, rfl, rfl, rfl, harguments⟩
  obtain ⟨bound, _, _, e, hbind, _, _, _, hresolved, _, _, hmeans⟩ :=
    bind_deletesListed hschema rfl hbuild hcompile hdelete hp hfound
      (.inr (rfl : orderTagArguments.isRecord = true)) rfl
  refine ⟨schema, spec, compiled, _, entity, bound, e, hschema, hspec, hcompile, hp, hfound, hbind,
    hresolved, fun w hdialect hparams => ?_⟩
  have hnumbers : Dialect.literal.compare .eq (.i64 1) (.i64 0) = false := by decide
  have hdiscerns : w.dialect.Discerns := hdialect ▸ hnumbers
  exact (hmeans w hdiscerns hparams).2.2.2

end Compiler

end ShapeSql
