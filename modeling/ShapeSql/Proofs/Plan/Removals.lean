import ShapeSql.Proofs.Plan.WriteDependencies
import ShapeSql.Proofs.Plan.Tuples
import ShapeSql.Proofs.Sql.Deletes

/-!
What a sync removes. The DELETE of a written place asks the rows to write for an owner of a stored row, and
for the row itself: a row of an owner that is written goes if it is not listed. What an owner refers to
that is not written any more is left alone, so the rows below a removed row stay.
-/

namespace ShapeSql

open Sql Planning

namespace Planner

variable {p : Planner} {w : World} {f : HoleFiller} {tree : WrittenTree}
  {v : Tree.Visit WrittenTable} {pairs : List JoinPair} {owner row : Row}

/-- The cells that the pairs equate are equal, those of the owner on the parent's side. -/
def refers (p : Planner) (w : World) (pairs : List JoinPair) (owner row : Row) : Bool :=
  pairs.all fun pair => (w.compare .eq (owner.cell (p.schema.columnName pair.parent))
    (row.cell (p.schema.columnName pair.child))).holds

/-- The rows to write hold one that the row refers to. -/
def owned (p : Planner) (w : World) (parent : WrittenTable) (pairs : List JoinPair) (row : Row) : Bool :=
  (w.database.tableVars parent.lookup).any fun owner => p.refers w pairs owner row

/-- The rows to write hold one with the key of the row. -/
def listed (w : World) (t : WrittenTable) (row : Row) : Bool :=
  (w.database.tableVars t.lookup).any fun found => t.table.keyColumns.all fun column =>
    (w.compare .eq (found.cell column.name) (row.cell column.name)).holds

/-- The rows to write hold the two that a row of a junction pairs, one of them listed by the other. -/
def paired (p : Planner) (w : World) (t parent : WrittenTable) (toParent toChild : List JoinPair)
    (row : Row) : Bool :=
  (w.database.tableVars t.lookup).any fun found => (w.database.tableVars parent.lookup).any fun owner =>
    (w.compare .eq (owner.cell indexColumn) (found.cell parentColumn)).holds &&
      (p.refers w toParent owner row && p.refers w toChild row found)

/-- The table that a place of a sync removes rows from. -/
def removalTable? (p : Planner) (v : Tree.Visit WrittenTable) : Option Table :=
  match v.parent?, v.label.link with
  | some _, some (.childHolds _) => if v.label.table.hasKey then some v.label.table else none
  | some _, some (.junction table _ _) => some (p.schema.table table)
  | _, _ => none

/-- The row has an owner that is written, and is not listed. -/
def stale (p : Planner) (w : World) (v : Tree.Visit WrittenTable) (row : Row) : Bool :=
  match v.parent?, v.label.link with
  | some parent, some (.childHolds pairs) => p.owned w parent pairs row && !listed w v.label row
  | some parent, some (.junction _ toParent toChild) =>
    p.owned w parent toParent row && !p.paired w v.label parent toParent toChild row
  | _, _ => false

/-- A place removes the row from the table of this name. -/
def removesAt (p : Planner) (w : World) (v : Tree.Visit WrittenTable) (name : String) (row : Row) : Bool :=
  (p.removalTable? v).any fun table => table.name == name && p.stale w v row

/-- Some place removes the row from the table of this name. -/
def removes (p : Planner) (w : World) (tree : WrittenTree) (name : String) (row : Row) : Bool :=
  tree.visits.any fun v => p.removesAt w v name row

/-- A collection that is written: the rows of a place hold a key to those of the place above. -/
structure Collection where
  place : Tree.Visit WrittenTable
  parent : WrittenTable
  pairs : List JoinPair

/-- The collections of a tree, at any depth. -/
def collections (tree : WrittenTree) : List Collection :=
  tree.visits.filterMap fun v => match v.parent?, v.label.link with
    | some parent, some (.childHolds pairs) => some ⟨v, parent, pairs⟩
    | _, _ => none

namespace Collection

variable {c : Collection}

/-- The stored rows of the owners. -/
def owners (c : Collection) (w : World) : List Row := w.database.tables c.parent.table.name

/-- The stored rows of the collection. -/
def rows (c : Collection) (w : World) : List Row := w.database.tables c.place.label.table.name

/-- The pairs refer to the key of the owners. -/
def RefersToKey (p : Planner) (c : Collection) : Prop :=
  ∀ column ∈ c.parent.table.keyColumns, ∃ pair ∈ c.pairs, p.schema.columnName pair.parent = column.name

theorem mem_collections : c ∈ collections tree ↔ c.place ∈ tree.visits ∧
    c.place.parent? = some c.parent ∧ c.place.label.link = some (.childHolds c.pairs) := by
  rw [collections, List.mem_filterMap]
  constructor
  · rintro ⟨v, hv, hmatch⟩
    split at hmatch
    · cases hmatch
      exact ⟨hv, ‹_›, ‹_›⟩
    · cases hmatch
  · rintro ⟨hv, hparent, hlink⟩
    exact ⟨c.place, hv, by rw [hparent, hlink]⟩

end Collection

/-- Every stored row of a written collection refers to a stored owner. -/
def Linked (p : Planner) (w : World) (tree : WrittenTree) : Prop :=
  ∀ c ∈ collections tree, ∀ row ∈ c.rows w, ∃ owner ∈ c.owners w, p.refers w c.pairs owner row = true

/-- No row of the collection is left that refers to an owner which is gone. -/
def NoOrphans (p : Planner) (before after : World) (c : Collection) : Prop :=
  ∀ row ∈ c.rows after, ∀ owner ∈ c.owners before, owner ∉ c.owners after →
    p.refers before c.pairs owner row = false

section Conditions

variable {env : Env}

/-- `EXISTS` of a tuple that is tied to those around it. -/
theorem holds_tied (source : Source) (tie : Expr) (negated : Bool) :
    ((Expr.exists ((probe source).restrict tie) negated).filled f).holds w env =
      ((sourceTuples w env (sourceFilled f (some source))).any (fun t =>
        (tie.filled f).holds w (t :: env)) != negated) := by
  have hpasses : (((probe source).restrict tie).filled f).passes w env =
      fun t => (tie.filled f).holds w (t :: env) :=
    funext fun t => Query.passes_restrict (probe source) tie t
  rw [Expr.filled, Expr.holds_exists negated rfl rfl rfl rfl, hpasses]
  rfl

/-- The cells of a row, and of the row that a DELETE considers. -/
theorem cells_single {first last : String} (hlast : sameName first last = false) {found row : Row}
    {name : String} : Env.cell [[(first, found)], [(last, row)]] first name = found.cell name ∧
      Env.cell [[(first, found)], [(last, row)]] last name = row.cell name := by
  refine ⟨Env.cell_of_row? (Tuple.row?_cons_self _ _ _) name, ?_⟩
  rw [Env.cell_of_none, Env.cell_of_row? (Tuple.row?_cons_self _ _ _)]
  rw [Tuple.row?_cons_of_ne hlast]
  rfl

/-- The cells of two joined rows, and of the row that a DELETE considers. -/
theorem cells_double {first second last : String} (hsecond : sameName first second = false)
    (hlast : sameName first last = false) (hlast' : sameName second last = false)
    {found other row : Row} {name : String} :
    Env.cell [[(first, found), (second, other)], [(last, row)]] first name = found.cell name ∧
      Env.cell [[(first, found), (second, other)], [(last, row)]] second name = other.cell name ∧
        Env.cell [[(first, found), (second, other)], [(last, row)]] last name = row.cell name := by
  refine ⟨Env.cell_of_row? (Tuple.row?_cons_self _ _ _) name, ?_, ?_⟩
  · apply Env.cell_of_row?
    rw [Tuple.row?_cons_of_ne hsecond, Tuple.row?_cons_self]
  · rw [Env.cell_of_none, Env.cell_of_row? (Tuple.row?_cons_self _ _ _)]
    rw [Tuple.row?_cons_of_ne hlast, Tuple.row?_cons_of_ne hlast']
    rfl

/-- The tuples of a table variable, with holes filled: there are none. -/
theorem tuples_tableVar (name aliasName : String) :
    sourceTuples w env (sourceFilled f (some (.of (.tableVar name (some aliasName))))) =
      (w.database.tableVars name).map fun row => [(aliasName, row)] := by
  rw [Source.of, sourceFilled, Factor.filled, joinsFilled]
  exact sourceTuples_tableVar name aliasName

theorem tuples_withOwner (t parent : WrittenTable) :
    sourceTuples w env (sourceFilled f (some (t.withOwner parent))) =
      (w.database.tableVars t.lookup).flatMap fun found =>
        ((w.database.tableVars parent.lookup).map fun owner => [("l", found), ("p", owner)]).filter
          fun tuple => (w.compare .eq (Env.cell (tuple :: env) "p" indexColumn)
            (Env.cell (tuple :: env) "l" parentColumn)).holds := by
  exact sourceTuples_joined _ _ _ _ _

/-- What the DELETE of child rows asks for. -/
theorem holds_staleChild (parent t : WrittenTable) (pairs : List JoinPair) (row : Row) :
    ((Expr.and (.exists ((probe (.of (.tableVar parent.lookup (some "p")))).restrict
        (p.pairsEq "p" "t" pairs)) false)
      (.exists ((probe (.of (.tableVar t.lookup (some "l")))).restrict
        (keyEq "l" "t" t.table.keyColumns)) true)).filled f).holds w [[("t", row)]] =
      (p.owned w parent pairs row && !listed w t row) := by
  have howner : ∀ owner : Row, ∀ name : String,
      Env.cell [[("p", owner)], [("t", row)]] "p" name = owner.cell name ∧
        Env.cell [[("p", owner)], [("t", row)]] "t" name = row.cell name :=
    fun owner name => cells_single (by decide)
  have hfound : ∀ (found : Row) (name : String),
      Env.cell [[("l", found)], [("t", row)]] "l" name = found.cell name ∧
        Env.cell [[("l", found)], [("t", row)]] "t" name = row.cell name :=
    fun found name => cells_single (by decide)
  rw [Expr.holds_and, holds_tied, holds_tied]
  simp only [tuples_tableVar, List.any_map, Function.comp_def, holds_pairsEq, holds_keyEq, howner, hfound,
    Bool.bne_false, Bool.bne_true]
  rfl

/-- What the DELETE of the rows of a junction asks for. -/
theorem holds_stalePair (parent t : WrittenTable) (toParent toChild : List JoinPair) (row : Row) :
    ((Expr.and (.exists ((probe (.of (.tableVar parent.lookup (some "p")))).restrict
        (p.pairsEq "p" "j" toParent)) false)
      (.exists (((probe (t.withOwner parent)).restrict (p.pairsEq "p" "j" toParent)).restrict
        (p.pairsEq "j" "l" toChild)) true)).filled f).holds w [[("j", row)]] =
      (p.owned w parent toParent row && !p.paired w t parent toParent toChild row) := by
  have howner : ∀ (owner : Row) (name : String),
      Env.cell [[("p", owner)], [("j", row)]] "p" name = owner.cell name ∧
        Env.cell [[("p", owner)], [("j", row)]] "j" name = row.cell name :=
    fun owner name => cells_single (by decide)
  have hboth : ∀ (found owner : Row) (name : String),
      Env.cell [[("l", found), ("p", owner)], [("j", row)]] "l" name = found.cell name ∧
        Env.cell [[("l", found), ("p", owner)], [("j", row)]] "p" name = owner.cell name ∧
          Env.cell [[("l", found), ("p", owner)], [("j", row)]] "j" name = row.cell name :=
    fun found owner name => cells_double (by decide) (by decide) (by decide)
  rw [Expr.holds_and, holds_tied, holds_probed]
  simp only [tuples_tableVar, tuples_withOwner, List.any_map, List.any_flatMap, List.any_filter,
    Function.comp_def, holds_pairsEq, howner, hboth, Bool.bne_false, Bool.bne_true]
  rfl

end Conditions

/-- A DELETE keeps the rows that its place does not remove, if it asks for just these. -/
theorem afterDeletes_removal {table : Table} (htable : p.removalTable? v = some table)
    {aliasName : String} {condition : Expr}
    (hstale : ∀ row, (condition.filled f).holds w [[(aliasName, row)]] = p.stale w v row) :
    w.afterDeletes ([.delete (.table table.name (some aliasName)) (some condition)].map
      (Statement.filled f)) = w.keeping fun name row => !p.removesAt w v name row := by
  have hkeep : ∀ (name : String) (row : Row), (name != table.name ||
      !(condition.filled f).holds w [[(aliasName, row)]]) = !p.removesAt w v name row := by
    intro name row
    rw [hstale, removesAt, htable, Option.any_some, Bool.not_and, bne, Bool.beq_comm]
  simp only [← hkeep]
  rfl

/-- The DELETE of a place keeps the rows that the place does not remove. -/
theorem afterDeletes_removeStale (v : Tree.Visit WrittenTable) :
    w.afterDeletes ((p.removeStale v).map (Statement.filled f)) =
      w.keeping fun name row => !p.removesAt w v name row := by
  have hnone : p.removalTable? v = none →
      w.afterDeletes [] = w.keeping fun name row => !p.removesAt w v name row := by
    intro h
    simp only [removesAt, h, Option.any_none, Bool.not_false, World.keeping_all]
    rfl
  unfold removeStale
  split
  · rename_i parent pairs hparent hlink
    split
    · rename_i hkey
      refine afterDeletes_removal (by simp only [removalTable?, hparent, hlink, hkey, if_true])
        fun row => ?_
      rw [holds_staleChild, stale, hparent, hlink]
    · rename_i hkey
      exact hnone (by simp [removalTable?, hparent, hlink, hkey])
  · rename_i parent table toParent toChild hparent hlink
    refine afterDeletes_removal (by simp only [removalTable?, hparent, hlink]) fun row => ?_
    rw [holds_stalePair, stale, hparent, hlink]
  · rename_i hchild hjunction
    refine hnone ?_
    unfold removalTable?
    split
    · exact (hchild _ _ ‹_› ‹_›).elim
    · exact (hjunction _ _ _ _ ‹_› ‹_›).elim
    · rfl

/-- What a place removes depends on the rows to write, which no DELETE changes. -/
theorem removesAt_keeping (keep : String → Row → Bool) :
    p.removesAt (w.keeping keep) = p.removesAt w := rfl

/-- The DELETEs of several places keep the rows that no place removes. -/
theorem afterDeletes_places (vs : List (Tree.Visit WrittenTable)) :
    w.afterDeletes ((vs.flatMap p.removeStale).map (Statement.filled f)) =
      w.keeping fun name row => !vs.any fun v => p.removesAt w v name row := by
  induction vs generalizing w with
  | nil => exact World.keeping_all.symm
  | cons v vs ih =>
    rw [List.flatMap_cons, List.map_append, World.afterDeletes_append, afterDeletes_removeStale, ih,
      World.keeping_keeping, removesAt_keeping]
    simp only [List.any_cons, Bool.not_or]

/-- The target table is no place that anything is removed at. -/
theorem removesAt_root {name : String} (hv : v.parent? = none) : p.removesAt w v name row = false := by
  rw [removesAt, removalTable?, hv]
  rfl

/-- A sync keeps the rows that no place removes. -/
theorem afterDeletes_removals (hsync : p.operation = .sync) (tree : WrittenTree) :
    w.afterDeletes ((p.removals tree).map (Statement.filled f)) =
      w.keeping fun name row => !p.removes w tree name row := by
  have hvisits : ∀ name row, (tree.visits.drop 1).reverse.any (fun v => p.removesAt w v name row) =
      p.removes w tree name row := by
    intro name row
    obtain ⟨t, kids⟩ := tree
    rw [List.any_reverse, removes, Tree.visits, Tree.visitsBelow, List.drop_one, List.tail_cons,
      List.any_cons, removesAt_root rfl, Bool.false_or]
  rw [removals, if_pos hsync, afterDeletes_places]
  simp only [hvisits]

/-- Statements without a removal among their roles delete nothing. -/
theorem afterDeletes_of_roles {batch : Batch} (h : ∀ r ∈ batch.roles, r ≠ .removes) :
    w.afterDeletes (batch.map (Statement.filled f)) = w := by
  apply World.afterDeletes_eq_self
  intro st hst source filter hdelete
  obtain ⟨planned, hplanned, rfl⟩ := List.mem_map.mp hst
  cases planned with
  | delete source filter => exact h .removes (List.mem_map_of_mem hplanned) rfl
  | _ => cases hdelete

/-- The DELETEs of a synced batch keep the rows that no place removes. -/
theorem write_afterDeletes {d d' : Draft} {batch : Batch} {relations : Option Relations}
    (hsync : p.operation = .sync) (hrun : p.write.run d = .ok ((batch, relations), d')) :
    ∃ entity tree, p.entity = .ok entity ∧ p.writtenTree entity = .ok tree ∧
      ∀ (w : World) (f : HoleFiller), w.afterDeletes (batch.map (Statement.filled f)) =
        w.keeping fun name row => !p.removes w tree name row := by
  obtain ⟨entity, tree, hentity, htree, ⟨hsize, hplain⟩ | ⟨filled, returned, hfilled, hreturned, rfl⟩⟩ :=
    p.write_batch hrun
  · refine ⟨entity, tree, hentity, htree, fun w f => ?_⟩
    obtain ⟨names, _, _, hole, _, rfl⟩ := plainInsert_inv hplain
    obtain ⟨t, kids⟩ := tree
    have hkids : kids = [] := by
      cases kids with
      | nil => rfl
      | cons kid kids =>
        obtain ⟨t', kids'⟩ := kid
        simp only [Tree.size, Tree.sizeAll] at hsize
        omega
    subst hkids
    have hnone : ∀ name row, p.removes w (.node t []) name row = false :=
      fun name row => List.any_eq_false.mpr fun v hv => by
        rw [List.mem_singleton.mp hv, removesAt_root rfl]
        exact Bool.false_ne_true
    simp only [hnone, Bool.not_false, World.keeping_all]
    rfl
  · refine ⟨entity, tree, hentity, htree, fun w f => ?_⟩
    have hdeclarations : ∀ r ∈ (declarations tree).roles, r ≠ .removes := by
      intro r hr
      obtain ⟨_, rfl, _⟩ := mem_roles_declarations.mp hr
      exact Role.noConfusion
    have hfills : ∀ r ∈ Batch.roles filled, r ≠ .removes := by
      rw [roles_filled hfilled]
      intro r hr
      obtain ⟨_, _, rfl⟩ := List.mem_map.mp hr
      exact Role.noConfusion
    have hwrites : ∀ r ∈ (p.writes tree).roles, r ≠ .removes := by
      rintro r hr rfl
      rw [Batch.roles, writes, List.map_flatMap] at hr
      obtain ⟨v, _, hr⟩ := List.mem_flatMap.mp hr
      cases subject_writeTable hr
    have hreturns : ∀ r ∈ returned.roles, r ≠ .removes := by
      rcases roles_returned hreturned with hnone | hselects
      · rw [hnone]
        exact List.forall_mem_nil _
      · rw [hselects, List.forall_mem_singleton]
        exact Role.noConfusion
    simp only [List.map_append, World.afterDeletes_append, afterDeletes_of_roles hdeclarations,
      afterDeletes_of_roles hfills, afterDeletes_of_roles hwrites, afterDeletes_of_roles hreturns,
      afterDeletes_removals hsync tree]

section Orphans

variable {c : Collection}

/-- What the DELETEs of a sync leave of the stored rows, given the rows to write. -/
structure Swept (p : Planner) (tree : WrittenTree) (before after : World) : Prop where
  /-- A row is gone where some place removes it. -/
  rows : ∀ name, after.database.tables name =
    (before.database.tables name).filter fun row => !p.removes before tree name row
  /-- Rows are orphaned unless all that refer to a removed row are removed themselves. -/
  orphans : ∀ c ∈ collections tree, p.NoOrphans before after c ↔
    ∀ owner ∈ c.owners before, ∀ row ∈ c.rows before, p.refers before c.pairs owner row = true →
      p.removes before tree c.parent.table.name owner = true →
        p.removes before tree c.place.label.table.name row = true
  /-- No row is orphaned by an owner of a table that no place removes from. -/
  safe : ∀ c ∈ collections tree, (∀ v ∈ tree.visits, ∀ table, p.removalTable? v = some table →
    table.name ≠ c.parent.table.name) → p.NoOrphans before after c
  /-- The DELETE of a collection leaves the rows of an owner that is not listed. -/
  left : ∀ c ∈ collections tree, c.RefersToKey p → ∀ owner row,
    p.refers before c.pairs owner row = true → listed before c.parent owner = false →
      p.removesAt before c.place c.place.label.table.name row = false

/-- A row has no written owner if the one that it refers to by its key is not listed. -/
theorem owned_of_not_listed (hkey : c.RefersToKey p) (hrefers : p.refers w c.pairs owner row = true)
    (hlisted : listed w c.parent owner = false) : p.owned w c.parent c.pairs row = false := by
  rw [owned, List.any_eq_false]
  intro other hother hboth
  rw [refers, List.all_eq_true] at hrefers hboth
  refine Bool.false_ne_true (hlisted.symm.trans (List.any_eq_true.mpr ⟨other, hother, ?_⟩))
  refine List.all_eq_true.mpr fun column hcolumn => ?_
  obtain ⟨pair, hpair, hname⟩ := hkey column hcolumn
  obtain ⟨hpresent, _, hequal⟩ := World.compare_eq_holds.mp (hrefers pair hpair)
  obtain ⟨hpresent', _, hequal'⟩ := World.compare_eq_holds.mp (hboth pair hpair)
  rw [← hname]
  exact World.compare_eq_holds.mpr ⟨hpresent', hpresent,
    w.dialect.equal.trans hequal' (w.dialect.equal.symm hequal)⟩

/-- What is swept by keeping the rows that no place removes. -/
theorem swept_keeping (p : Planner) (tree : WrittenTree) (w : World) :
    p.Swept tree w (w.keeping fun name row => !p.removes w tree name row) := by
  have hmem : ∀ name row, row ∈ (w.keeping fun name row => !p.removes w tree name row).database.tables
      name ↔ row ∈ w.database.tables name ∧ p.removes w tree name row = false := fun name row => by
    simp only [World.keeping, List.mem_filter, Bool.not_eq_true']
  -- A row that stays has no owner that goes, read both ways through what stays and what goes.
  have horphans : ∀ c : Collection,
      p.NoOrphans w (w.keeping fun name row => !p.removes w tree name row) c ↔
        ∀ owner ∈ c.owners w, ∀ row ∈ c.rows w, p.refers w c.pairs owner row = true →
          p.removes w tree c.parent.table.name owner = true →
            p.removes w tree c.place.label.table.name row = true := by
    intro c
    constructor
    · intro hnone owner howner row hrow hrefers hremoved
      by_contra hleft
      rw [Bool.not_eq_true] at hleft
      have hgone := hnone row ((hmem _ _).mpr ⟨hrow, hleft⟩) owner howner fun hkept =>
        Bool.false_ne_true (((hmem _ _).mp hkept).2.symm.trans hremoved)
      exact Bool.false_ne_true (hgone.symm.trans hrefers)
    · intro hall row hrow owner howner hgone
      obtain ⟨hrow, hleft⟩ := (hmem _ _).mp hrow
      by_contra hrefers
      rw [Bool.not_eq_false] at hrefers
      have hremoved : p.removes w tree c.parent.table.name owner = true := by
        by_contra hkept
        exact hgone ((hmem _ _).mpr ⟨howner, Bool.not_eq_true _ ▸ hkept⟩)
      exact Bool.false_ne_true (hleft.symm.trans (hall owner howner row hrow hrefers hremoved))
  exact {
    rows := fun _ => rfl
    orphans := fun c _ => horphans c
    safe := by
      intro c _ hsafe
      refine (horphans c).mpr fun owner _ row _ _ hremoved => ?_
      obtain ⟨v, hv, hremoves⟩ := List.any_eq_true.mp hremoved
      rw [removesAt] at hremoves
      cases htable : p.removalTable? v with
      | none =>
        rw [htable] at hremoves
        cases hremoves
      | some table =>
        rw [htable, Option.any_some, Bool.and_eq_true, beq_iff_eq] at hremoves
        exact absurd hremoves.1 (hsafe v hv table htable)
    left := by
      intro c hc hkey owner row hrefers hlisted
      obtain ⟨_, hparent, hlink⟩ := Collection.mem_collections.mp hc
      have howned := owned_of_not_listed hkey hrefers hlisted
      have hstale : p.stale w c.place row = false := by
        rw [stale, hparent, hlink]
        simp only [howned, Bool.false_and]
      simp [removesAt, hstale] }

end Orphans

end Planner

end ShapeSql
