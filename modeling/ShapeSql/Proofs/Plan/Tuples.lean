import ShapeSql.Proofs.Plan.FromSites
import ShapeSql.Proofs.Sql.Locality

/-!
The tuples of a FROM clause over relations. Joining goes place by place: a tuple is extended by each row
that matches the place above, or in a left join without a match by a row of nulls. A place that shows a
single row is joined by the key of its table, so it matches one row at most, and whatever else is joined
leaves the rows of such places alone.
-/

namespace ShapeSql

open Sql

namespace Sql

theorem Apart.sameName_eq_false {xs ys : List String} (h : Apart (xs ++ ys)) {x y : String}
    (hx : x ∈ xs) (hy : y ∈ ys) : sameName x y = false := by
  rw [Apart, List.map_append] at h
  rw [sameName, beq_eq_false_iff_ne]
  exact (List.nodup_append.mp h).2.2 _ (List.mem_map_of_mem hx) _ (List.mem_map_of_mem hy)

section Cells

variable {t more : Tuple} {outer : Env} {aliasName : String} {row : Row}

theorem Tuple.exists_row? (h : aliasName ∈ t.names) : ∃ row, t.row? aliasName = some row := by
  cases hrow : t.row? aliasName with
  | some row => exact ⟨row, rfl⟩
  | none =>
    have hnone := Tuple.row?_eq_none.mp hrow aliasName h
    rw [sameName_self] at hnone
    cases hnone

@[simp] theorem Tuple.names_append (t u : Tuple) : Tuple.names (t ++ u) = t.names ++ u.names :=
  List.map_append

@[simp] theorem Tuple.names_singleton (aliasName : String) (row : Row) :
    Tuple.names [(aliasName, row)] = [aliasName] := rfl

theorem Env.cell_of_row? (h : t.row? aliasName = some row) (name : String) :
    Env.cell (t :: outer) aliasName name = row.cell name := by
  rw [Env.cell, h]

theorem Env.cell_of_none (h : t.row? aliasName = none) (name : String) :
    Env.cell (t :: outer) aliasName name = outer.cell aliasName name := by
  rw [Env.cell, h]

/-- Extending a tuple changes nothing for the names that it has. -/
theorem Tuple.row?_append_left (h : aliasName ∈ t.names) (more : Tuple) :
    Tuple.row? (t ++ more) aliasName = t.row? aliasName := by
  obtain ⟨row, hrow⟩ := Tuple.exists_row? h
  rw [Tuple.row?_append, hrow, Option.some_or]

theorem Tuple.row?_append_right (h : ∀ name ∈ t.names, sameName name aliasName = false)
    (more : Tuple) : Tuple.row? (t ++ more) aliasName = more.row? aliasName := by
  rw [Tuple.row?_append, Tuple.row?_eq_none.mpr h, Option.none_or]

theorem Tuple.row?_cons_self (aliasName : String) (row : Row) (t : Tuple) :
    Tuple.row? ((aliasName, row) :: t) aliasName = some row := by
  simp [Tuple.row?, sameName_self]

theorem Tuple.row?_cons_of_ne {other : String} (h : sameName other aliasName = false) (row : Row)
    (t : Tuple) : Tuple.row? ((other, row) :: t) aliasName = t.row? aliasName := by
  simp [Tuple.row?, h]

/-- Names that agree up to case read the same. -/
theorem Tuple.row?_sameName {other : String} (h : sameName other aliasName = true) :
    t.row? other = t.row? aliasName := by
  have hlower : lowerAscii other = lowerAscii aliasName := by simpa [sameName] using h
  simp only [Tuple.row?, sameName, hlower]

theorem Env.cell_sameName {other : String} (h : sameName other aliasName = true) (env : Env)
    (name : String) : env.cell other name = env.cell aliasName name := by
  induction env with
  | nil => rfl
  | cons t outer ih => rw [Env.cell, Env.cell, Tuple.row?_sameName h, ih]

/-- The row that a tuple is extended by is read under its name. -/
theorem Tuple.row?_snoc (h : ∀ name ∈ t.names, sameName name aliasName = false) (row : Row) :
    Tuple.row? (t ++ [(aliasName, row)]) aliasName = some row := by
  rw [Tuple.row?_append_right h, Tuple.row?_cons_self]

/-- The names read the same cells on both sides. -/
def SameCells (names : List String) (env env' : Env) : Prop :=
  ∀ aliasName ∈ names, ∀ name, env.cell aliasName name = env'.cell aliasName name

theorem SameCells.symm {names : List String} {env env' : Env} (h : SameCells names env env') :
    SameCells names env' env :=
  fun aliasName hname name => (h aliasName hname name).symm

theorem SameCells.trans {names : List String} {env env' env'' : Env}
    (h : SameCells names env env') (h' : SameCells names env' env'') : SameCells names env env'' :=
  fun aliasName hname name => (h aliasName hname name).trans (h' aliasName hname name)

theorem SameCells.mono {names others : List String} {env env' : Env} (h : SameCells names env env')
    (hsub : others ⊆ names) : SameCells others env env' :=
  fun aliasName hname => h aliasName (hsub hname)

/-- Extending a tuple leaves the cells of its names as they are. -/
theorem sameCells_append (t more : Tuple) (outer : Env) :
    SameCells t.names (t :: outer) ((t ++ more) :: outer) := by
  intro aliasName hname name
  obtain ⟨row, hrow⟩ := Tuple.exists_row? hname
  rw [Env.cell_of_row? hrow, Env.cell_of_row? ((Tuple.row?_append_left hname more).trans hrow)]

/-- The same row at the end of two tuples is read the same, and so is what was read the same before. -/
theorem SameCells.snoc {names : List String} {t t' : Tuple} {outer outer' : Env} {aliasName : String}
    (hsame : SameCells names (t :: outer) (t' :: outer')) (hnames : names ⊆ t.names)
    (hnames' : names ⊆ t'.names) (hother : ∀ name ∈ t.names, sameName name aliasName = false)
    (hother' : ∀ name ∈ t'.names, sameName name aliasName = false) (row : Row) :
    SameCells (names ++ [aliasName]) ((t ++ [(aliasName, row)]) :: outer)
      ((t' ++ [(aliasName, row)]) :: outer') := by
  intro name hname cell
  rcases List.mem_append.mp hname with hold | hnew
  · rw [← sameCells_append t _ outer _ (hnames hold), ← sameCells_append t' _ outer' _ (hnames' hold)]
    exact hsame _ hold cell
  · rw [List.mem_singleton.mp hnew, Env.cell_of_row? (Tuple.row?_snoc hother row),
      Env.cell_of_row? (Tuple.row?_snoc hother' row)]

/-- A row source before the others hides none that is named otherwise. -/
theorem sameCells_cons {names : List String} {other : String}
    (h : ∀ name ∈ names, sameName other name = false) (row : Row) (t : Tuple) (outer : Env) :
    SameCells names (((other, row) :: t) :: outer) (t :: outer) := by
  intro aliasName hname name
  rw [Env.cell, Env.cell, Tuple.row?_cons_of_ne (h aliasName hname)]

end Cells

end Sql

section Keyed

/-- The cells of the two rows in the columns are all equal. -/
def Sql.Dialect.sameKey (d : Dialect) (key : List Column) (a b : Row) : Prop :=
  ∀ column ∈ key, d.compare .eq (a.cell column.name) (b.cell column.name) = true

/-- The primary keys that the schema declares are non-null and unique. -/
structure Sql.Database.Keyed (db : Database) (d : Dialect) (s : Schema) : Prop where
  present : ∀ t ∈ s.tables, ∀ row ∈ db.tables t.name, ∀ column ∈ t.keyColumns,
    (row.cell column.name).isNull = false
  unique : ∀ t ∈ s.tables, t.hasKey = true →
    (db.tables t.name).Pairwise fun a b => ¬d.sameKey t.keyColumns a b

/-- Pairs that cover a key have each of its columns on the child's side. -/
theorem exists_pair_of_coversKey {s : Schema} (hs : s.Sound) {parent child : Table}
    (hchild : child ∈ s.tables) {pairs : List JoinPair} (hpairs : PairsBetween parent child pairs)
    (h : coversKey s pairs = true) : child.hasKey = true ∧
      ∀ column ∈ child.keyColumns, ∃ pair ∈ pairs, s.columnName pair.child = column.name := by
  unfold coversKey at h
  split at h
  · cases h
  · rename_i first rest
    have hlaid := hs.laid child hchild
    have htable : s.table first.child.table = child := by
      obtain ⟨column, hcolumn, hid⟩ := (hpairs first List.mem_cons_self).2
      obtain ⟨i, hi⟩ := List.mem_iff_getElem?.mp hcolumn
      rw [← hid, hlaid.numbered i column hi]
      exact hs.table_id hchild
    simp only [htable, Bool.and_eq_true, List.all_eq_true] at h
    refine ⟨h.1, ?_⟩
    intro column hcolumn
    have hkey : column.id ∈ child.primaryKey := by
      rw [hlaid.keyColumns_eq] at hcolumn
      rw [hlaid.key]
      exact List.mem_map_of_mem hcolumn
    obtain ⟨pair, hpair, hsame⟩ := List.any_eq_true.mp (h.2 _ hkey)
    have hid : pair.child = column.id := by simpa using hsame
    refine ⟨pair, hpair, ?_⟩
    rw [hid]
    exact hs.columnName_eq hchild (hlaid.mem_of_mem_keyColumns hcolumn)

theorem Sql.World.compare_eq_holds {w : World} {a b : Value} : (w.compare .eq a b).holds = true ↔
    a.isNull = false ∧ b.isNull = false ∧ w.dialect.compare .eq a b = true := by
  unfold World.compare
  split
  · rename_i hnull
    simp only [Truth.holds, Bool.false_eq_true, false_iff]
    rintro ⟨ha, hb, _⟩
    rw [ha, hb] at hnull
    cases hnull
  · rename_i hpresent
    rw [Bool.or_eq_true, not_or, Bool.not_eq_true, Bool.not_eq_true] at hpresent
    rw [Truth.holds_ofBool]
    exact ⟨fun h => ⟨hpresent.1, hpresent.2, h⟩, fun h => h.2.2⟩

end Keyed

namespace Planner

variable {p : Planner} {w : World} {outer env env' : Env} {kind : JoinKind}
  {v : Tree.Visit Relation} {vs : List (Tree.Visit Relation)} {t u : Tuple}

/-- The row source that a place is joined to. -/
def parentAlias (v : Tree.Visit Relation) : String := (v.parent?.getD v.label).aliasName

/-- The aliases of places, in the order in which they are joined. -/
def aliasesOf (vs : List (Tree.Visit Relation)) : List String := vs.map fun v => v.label.aliasName

@[simp] theorem aliasesOf_nil : aliasesOf [] = [] := rfl

@[simp] theorem aliasesOf_cons : aliasesOf (v :: vs) = v.label.aliasName :: aliasesOf vs := rfl

/-- Each place is joined to a row source that is there by then. -/
def Rooted : List String → List (Tree.Visit Relation) → Prop
  | _, [] => True
  | names, v :: vs => parentAlias v ∈ names ∧ Rooted (names ++ [v.label.aliasName]) vs

theorem Rooted.parent_mem {names : List String} (h : Rooted names vs) :
    ∀ v ∈ vs, parentAlias v ∈ names ++ aliasesOf vs := by
  induction vs generalizing names with
  | nil => exact nofun
  | cons first vs ih =>
    refine List.forall_mem_cons.mpr ⟨List.mem_append_left _ h.1, ?_⟩
    intro v hv
    have hmem := ih h.2 v hv
    rw [List.append_assoc] at hmem
    exact hmem

/-- The cells of a place match those of the place above it. -/
def ties (p : Planner) (w : World) (env : Env) (v : Tree.Visit Relation) : Bool :=
  v.label.join.all fun pair => (w.compare .eq
    (env.cell (parentAlias v) (p.schema.columnName pair.parent))
    (env.cell v.label.aliasName (p.schema.columnName pair.child))).holds

/-- The rows of the table of a place. -/
def tableRows (p : Planner) (w : World) (r : Relation) : List Row :=
  w.database.tables (p.schema.table r.table).name

/-- The rows that match where a place is joined to a tuple. -/
def matched (p : Planner) (w : World) (outer : Env) (t : Tuple) (v : Tree.Visit Relation) : List Row :=
  (p.tableRows w v.label).filter fun row => p.ties w ((t ++ [(v.label.aliasName, row)]) :: outer) v

/-- A left join without a match has the row of nulls. -/
def rowsOrNulls : JoinKind → List Row → List Row
  | .left, [] => [[]]
  | _, rows => rows

/-- The rows that a tuple is extended by. -/
def joinedRows (p : Planner) (w : World) (outer : Env) (kind : JoinKind) (t : Tuple)
    (v : Tree.Visit Relation) : List Row := rowsOrNulls kind (p.matched w outer t v)

/-- The tuples that places are joined to, one after the other. -/
def extensions (p : Planner) (w : World) (outer : Env) (kind : JoinKind) :
    List (Tree.Visit Relation) → Tuple → List Tuple
  | [], t => [t]
  | v :: vs, t => (p.joinedRows w outer kind t v).flatMap fun row =>
    p.extensions w outer kind vs (t ++ [(v.label.aliasName, row)])

/-- The joins of places. -/
def joins (p : Planner) (kind : JoinKind) (vs : List (Tree.Visit Relation)) : List Join :=
  vs.map fun v => ⟨kind, p.factor v.label, p.joinCondition v⟩

theorem foldl_join_eq (p : Planner) (kind : JoinKind) (vs : List (Tree.Visit Relation))
    (base : Factor) (first : List Join) :
    vs.foldl (fun source v => source.join kind (p.factor v.label) (p.joinCondition v)) ⟨base, first⟩ =
      (⟨base, first ++ p.joins kind vs⟩ : Source) := by
  induction vs generalizing first with
  | nil => rw [joins, List.map_nil, List.append_nil, List.foldl_nil]
  | cons v vs ih =>
    rw [List.foldl_cons, Source.join, ih, joins, joins, List.map_cons, List.append_assoc,
      List.singleton_append]

theorem holds_pairsEq (f : HoleFiller) (p : Planner) (w : World) (env : Env) (left right : String)
    (pairs : List JoinPair) : ((p.pairsEq left right pairs).filled f).holds w env =
      pairs.all fun pair => (w.compare .eq (env.cell left (p.schema.columnName pair.parent))
        (env.cell right (p.schema.columnName pair.child))).holds := by
  rw [pairsEq, Expr.holds_allOf, List.all_map]
  rfl

/-- `EXISTS` of a tuple that is tied to those around it and meets a condition. -/
theorem holds_probed (f : HoleFiller) (w : World) (env : Env) (source : Source) (tie condition : Expr)
    (negated : Bool) :
    ((Expr.exists (((probe source).restrict tie).restrict condition) negated).filled f).holds w env =
      ((sourceTuples w env (sourceFilled f (some source))).any (fun t =>
        (tie.filled f).holds w (t :: env) && (condition.filled f).holds w (t :: env)) != negated) := by
  have hpasses : ((((probe source).restrict tie).restrict condition).filled f).passes w env =
      fun t => (tie.filled f).holds w (t :: env) && (condition.filled f).holds w (t :: env) :=
    funext fun t => by
      rw [Query.passes_restrict, Query.passes_restrict]
      rfl
  rw [Expr.filled, Expr.holds_exists negated rfl rfl rfl rfl, hpasses]
  rfl

theorem holds_keyEq (f : HoleFiller) (w : World) (env : Env) (left right : String)
    (key : List Column) : ((keyEq left right key).filled f).holds w env = key.all fun column =>
      (w.compare .eq (env.cell left column.name) (env.cell right column.name)).holds := by
  rw [keyEq, Expr.holds_allOf, List.all_map]
  rfl

theorem holds_joinCondition (f : HoleFiller) (p : Planner) (w : World) (env : Env)
    (v : Tree.Visit Relation) : ((p.joinCondition v).filled f).holds w env = p.ties w env v :=
  p.holds_pairsEq f w env _ _ v.label.join

theorem joinedRows_left_nil (h : p.matched w outer t v = []) :
    p.joinedRows w outer .left t v = [[]] := by
  rw [joinedRows, h, rowsOrNulls]

theorem joinedRows_of_ne_nil (h : p.matched w outer t v ≠ []) :
    p.joinedRows w outer kind t v = p.matched w outer t v := by
  unfold joinedRows rowsOrNulls
  split
  · contradiction
  · rfl

/-- The joins of a FROM clause extend its tuples place by place. -/
theorem joinsTuples_joins (f : HoleFiller) (p : Planner) (w : World) (outer : Env) (kind : JoinKind)
    (vs : List (Tree.Visit Relation)) (t : Tuple) :
    joinsTuples w outer (joinsFilled f (p.joins kind vs)) t = p.extensions w outer kind vs t := by
  induction vs generalizing t with
  | nil => rw [joins, List.map_nil, joinsFilled, joinsTuples, extensions]
  | cons v vs ih =>
    have hfound : ((((p.factor v.label).filled f).rows w outer).map fun row =>
        t ++ [(((p.factor v.label).filled f).reference, row)]).filter (fun x =>
          (((p.joinCondition v).filled f).truth w (x :: outer)).holds) =
        (p.matched w outer t v).map fun row => t ++ [(v.label.aliasName, row)] := by
      have hholds : ∀ x : Tuple, (((p.joinCondition v).filled f).truth w (x :: outer)).holds =
          p.ties w (x :: outer) v := fun x => p.holds_joinCondition f w (x :: outer) v
      simp only [hholds]
      rw [List.filter_map]
      rfl
    rw [joins, List.map_cons, ← joins, joinsFilled, joinsTuples, hfound, extensions]
    simp only [ih]
    have hpadded : kind.padded (t ++ [(((p.factor v.label).filled f).reference, [])])
        ((p.matched w outer t v).map fun row => t ++ [(v.label.aliasName, row)]) =
          (p.joinedRows w outer kind t v).map fun row => t ++ [(v.label.aliasName, row)] := by
      cases kind with
      | inner => rfl
      | left =>
        cases hmatched : p.matched w outer t v with
        | nil =>
          rw [joinedRows_left_nil hmatched]
          rfl
        | cons row rows =>
          rw [joinedRows_of_ne_nil (by rw [hmatched]; exact List.cons_ne_nil _ _), hmatched]
          rfl
    rw [hpadded, List.flatMap_map]

section Extensions

/-- Matching reads the place and the one above it. -/
theorem ties_congr (h : SameCells [parentAlias v, v.label.aliasName] env env') :
    p.ties w env v = p.ties w env' v := by
  rw [ties, ties]
  simp only [h (parentAlias v) List.mem_cons_self,
    h v.label.aliasName (List.mem_cons_of_mem _ List.mem_cons_self)]

/-- An extension adds a row of each place. -/
theorem exists_of_mem_extensions (h : u ∈ p.extensions w outer kind vs t) :
    ∃ more : Tuple, u = t ++ more ∧ more.names = aliasesOf vs := by
  induction vs generalizing t with
  | nil =>
    rw [extensions, List.mem_singleton] at h
    exact ⟨[], by rw [h, List.append_nil], rfl⟩
  | cons v vs ih =>
    rw [extensions] at h
    obtain ⟨row, _, h⟩ := List.mem_flatMap.mp h
    obtain ⟨more, rfl, hnames⟩ := ih h
    refine ⟨(v.label.aliasName, row) :: more, by rw [List.append_assoc]; rfl, ?_⟩
    rw [aliasesOf_cons, ← hnames]
    rfl

/-- Nothing that is joined hides what was there. -/
theorem sameCells_extension (h : u ∈ p.extensions w outer kind vs t) :
    SameCells t.names (t :: outer) (u :: outer) := by
  obtain ⟨more, rfl, _⟩ := exists_of_mem_extensions h
  exact sameCells_append t more outer

theorem sameCells_snoc_extension {row : Row}
    (h : u ∈ p.extensions w outer kind vs (t ++ [(v.label.aliasName, row)]))
    (hparent : parentAlias v ∈ t.names) : SameCells [parentAlias v, v.label.aliasName]
      ((t ++ [(v.label.aliasName, row)]) :: outer) (u :: outer) := by
  refine (sameCells_extension h).mono ?_
  rw [Tuple.names_append, Tuple.names_singleton]
  intro name hname
  rcases List.mem_cons.mp hname with rfl | hown
  · exact List.mem_append_left _ hparent
  · exact List.mem_append_right _ hown

/-- Apart names stay apart when a place is joined. -/
theorem apart_snoc (row : Row) (h : Apart (t.names ++ aliasesOf (v :: vs))) :
    (∀ name ∈ t.names, sameName name v.label.aliasName = false) ∧
      Apart (Tuple.names (t ++ [(v.label.aliasName, row)]) ++ aliasesOf vs) := by
  refine ⟨fun name hname => h.sameName_eq_false hname List.mem_cons_self, ?_⟩
  rw [Tuple.names_append, Tuple.names_singleton, List.append_assoc]
  exact h

/-- In a left join a place has a row that matches the place above, or no cells. -/
theorem row_of_mem_extensions (h : u ∈ p.extensions w outer .left vs t) (hrooted : Rooted t.names vs)
    (hapart : Apart (t.names ++ aliasesOf vs)) : ∀ v ∈ vs, u.row? v.label.aliasName = some [] ∨
      ∃ row ∈ p.tableRows w v.label, u.row? v.label.aliasName = some row ∧
        p.ties w (u :: outer) v = true := by
  induction vs generalizing t with
  | nil => exact nofun
  | cons first vs ih =>
    rw [extensions] at h
    obtain ⟨row, hrow, h⟩ := List.mem_flatMap.mp h
    obtain ⟨hother, hrest⟩ := apart_snoc row hapart
    refine List.forall_mem_cons.mpr ⟨?_, ?_⟩
    · have hown : u.row? first.label.aliasName = some row := by
        obtain ⟨more, rfl, _⟩ := exists_of_mem_extensions h
        rw [Tuple.row?_append_left]
        · exact Tuple.row?_snoc hother row
        · rw [Tuple.names_append, Tuple.names_singleton]
          exact List.mem_append_right _ (List.mem_singleton.mpr rfl)
      cases hmatched : p.matched w outer t first with
      | nil =>
        rw [joinedRows_left_nil hmatched, List.mem_singleton] at hrow
        rw [hrow] at hown
        exact Or.inl hown
      | cons _ _ =>
        rw [joinedRows_of_ne_nil (by rw [hmatched]; exact List.cons_ne_nil _ _)] at hrow
        obtain ⟨htable, htied⟩ := List.mem_filter.mp hrow
        rw [ties_congr (sameCells_snoc_extension h hrooted.1)] at htied
        exact Or.inr ⟨row, htable, hown, htied⟩
    · exact ih h (by rw [Tuple.names_append, Tuple.names_singleton]; exact hrooted.2) hrest

/-- Rows that match one another make up an extension. -/
theorem mem_extensions (pick : Tree.Visit Relation → Row) (hrooted : Rooted t.names vs)
    (hrows : ∀ v ∈ vs, pick v ∈ p.tableRows w v.label ∧ p.ties w
      ((t ++ vs.map fun v => (v.label.aliasName, pick v)) :: outer) v = true) :
    (t ++ vs.map fun v => (v.label.aliasName, pick v)) ∈ p.extensions w outer kind vs t := by
  induction vs generalizing t with
  | nil =>
    rw [List.map_nil, List.append_nil, extensions]
    exact List.mem_singleton.mpr rfl
  | cons first vs ih =>
    have hsplit : (t ++ (first :: vs).map fun v => (v.label.aliasName, pick v)) =
        (t ++ [(first.label.aliasName, pick first)]) ++
          vs.map fun v => (v.label.aliasName, pick v) := by
      rw [List.map_cons, List.append_assoc, List.singleton_append]
    rw [hsplit] at hrows ⊢
    rw [List.forall_mem_cons] at hrows
    rw [extensions]
    refine List.mem_flatMap.mpr ⟨pick first, ?_, ?_⟩
    · have htied : p.ties w ((t ++ [(first.label.aliasName, pick first)]) :: outer) first = true := by
        rw [← hrows.1.2]
        apply ties_congr
        refine (sameCells_append _ _ outer).mono ?_
        rw [Tuple.names_append, Tuple.names_singleton]
        intro name hname
        rcases List.mem_cons.mp hname with rfl | hown
        · exact List.mem_append_left _ hrooted.1
        · exact List.mem_append_right _ hown
      have hmatched : pick first ∈ p.matched w outer t first :=
        List.mem_filter.mpr ⟨hrows.1.1, htied⟩
      rw [joinedRows_of_ne_nil (List.ne_nil_of_mem hmatched)]
      exact hmatched
    · exact ih (by rw [Tuple.names_append, Tuple.names_singleton]; exact hrooted.2) hrows.2

/-- A row source before the others that none of them is named like changes nothing. -/
theorem extensions_cons {lead : String} {row : Row}
    (hlead : ∀ v ∈ vs, sameName lead (parentAlias v) = false ∧
      sameName lead v.label.aliasName = false) (t : Tuple) :
    p.extensions w outer kind vs ((lead, row) :: t) =
      (p.extensions w outer kind vs t).map fun u => (lead, row) :: u := by
  induction vs generalizing t with
  | nil => rw [extensions, extensions, List.map_singleton]
  | cons v vs ih =>
    rw [List.forall_mem_cons] at hlead
    have hmatched : p.matched w outer ((lead, row) :: t) v = p.matched w outer t v := by
      apply List.filter_congr
      intro found _
      apply ties_congr
      refine sameCells_cons ?_ row (t ++ [(v.label.aliasName, found)]) outer
      intro name hname
      rcases List.mem_cons.mp hname with rfl | hown
      · exact hlead.1.1
      · rw [List.mem_singleton.mp hown]
        exact hlead.1.2
    rw [extensions, extensions, joinedRows, hmatched, ← joinedRows, List.map_flatMap]
    apply List.flatMap_congr
    intro found _
    exact ih hlead.2 _

end Extensions

section Single

/-- A place that the key of its table is joined by matches one row at most. -/
theorem matched_length (hs : p.schema.Sound) (hkeyed : w.database.Keyed w.dialect p.schema)
    (hplaced : v.label.Placed p.schema) {parent : Table}
    (hpairs : PairsBetween parent (p.schema.table v.label.table) v.label.join)
    (hcovers : coversKey p.schema v.label.join = true) (hparent : parentAlias v ∈ t.names)
    (hother : ∀ name ∈ t.names, sameName name v.label.aliasName = false) :
    (p.matched w outer t v).length ≤ 1 := by
  have htable := hplaced.table_mem hs
  obtain ⟨hhasKey, hcolumns⟩ := exists_pair_of_coversKey hs htable hpairs hcovers
  have hunique : (p.matched w outer t v).Pairwise fun a b =>
      ¬w.dialect.sameKey (p.schema.table v.label.table).keyColumns a b :=
    (hkeyed.unique _ htable hhasKey).sublist List.filter_sublist
  have hsame : ∀ a ∈ p.matched w outer t v, ∀ b ∈ p.matched w outer t v,
      w.dialect.sameKey (p.schema.table v.label.table).keyColumns a b := by
    intro a ha b hb column hcolumn
    obtain ⟨pair, hpair, hname⟩ := hcolumns column hcolumn
    have hcell : ∀ row ∈ p.matched w outer t v, w.dialect.compare .eq
        (Env.cell (t :: outer) (parentAlias v) (p.schema.columnName pair.parent))
        (row.cell column.name) = true := by
      intro row hrow
      have htied := List.all_eq_true.mp (List.mem_filter.mp hrow).2 pair hpair
      rw [← sameCells_append t _ outer _ hparent, Env.cell_of_row? (Tuple.row?_snoc hother row), hname]
        at htied
      exact (World.compare_eq_holds.mp htied).2.2
    exact w.dialect.equal.trans (w.dialect.equal.symm (hcell a ha)) (hcell b hb)
  match hrows : p.matched w outer t v with
  | [] => exact Nat.zero_le 1
  | [_] => exact Nat.le_refl 1
  | a :: b :: rest =>
    rw [hrows] at hunique hsame
    exact absurd (hsame a List.mem_cons_self b (List.mem_cons_of_mem _ List.mem_cons_self))
      (List.rel_of_pairwise_cons hunique List.mem_cons_self)

/-- A place is joined to a tuple by one row, real or not. -/
def Single (p : Planner) (w : World) (v : Tree.Visit Relation) : Prop :=
  ∀ (outer : Env) (t : Tuple), parentAlias v ∈ t.names →
    (∀ name ∈ t.names, sameName name v.label.aliasName = false) →
      (p.matched w outer t v).length ≤ 1

theorem Single.joinedRows (outer : Env) (h : p.Single w v) (hparent : parentAlias v ∈ t.names)
    (hother : ∀ name ∈ t.names, sameName name v.label.aliasName = false) :
    ∃ row, p.joinedRows w outer .left t v = [row] := by
  have hlength := h outer t hparent hother
  match hmatched : p.matched w outer t v with
  | [] => exact ⟨[], joinedRows_left_nil hmatched⟩
  | [row] =>
    refine ⟨row, ?_⟩
    rw [joinedRows_of_ne_nil (by rw [hmatched]; exact List.cons_ne_nil _ _), hmatched]
  | _ :: _ :: _ =>
    rw [hmatched, List.length_cons, List.length_cons] at hlength
    omega

/-- Joined to places of one row each, a tuple stays one. -/
theorem extensions_single (outer : Env) (t : Tuple) (hsingle : ∀ v ∈ vs, p.Single w v) (hrooted : Rooted t.names vs)
    (hapart : Apart (t.names ++ aliasesOf vs)) : ∃ u, p.extensions w outer .left vs t = [u] := by
  induction vs generalizing t with
  | nil => exact ⟨t, by rw [extensions]⟩
  | cons v vs ih =>
    rw [List.forall_mem_cons] at hsingle
    obtain ⟨hother, _⟩ := apart_snoc [] hapart
    obtain ⟨row, hrow⟩ := hsingle.1.joinedRows outer hrooted.1 hother
    have hrest := (apart_snoc row hapart).2
    obtain ⟨u, hu⟩ := ih (t ++ [(v.label.aliasName, row)]) hsingle.2
      (by rw [Tuple.names_append, Tuple.names_singleton]; exact hrooted.2) hrest
    exact ⟨u, by rw [extensions, hrow, List.flatMap_singleton, hu]⟩

/-- The rows that match a place are the same where the place above it has the same cells. -/
theorem matched_congr {names : List String} {t' : Tuple} {outer' : Env}
    (hparent : parentAlias v ∈ names) (hsame : SameCells names (t :: outer) (t' :: outer'))
    (hnames : names ⊆ t.names) (hnames' : names ⊆ t'.names)
    (hother : ∀ name ∈ t.names, sameName name v.label.aliasName = false)
    (hother' : ∀ name ∈ t'.names, sameName name v.label.aliasName = false) :
    p.matched w outer t v = p.matched w outer' t' v := by
  apply List.filter_congr
  intro row _
  apply ties_congr
  refine (hsame.snoc hnames hnames' hother hother' row).mono ?_
  intro name hname
  rcases List.mem_cons.mp hname with rfl | hown
  · exact List.mem_append_left _ hparent
  · exact List.mem_append_right _ hown

/-- Whatever else is joined, places of one row each have the same cells as if they were joined alone. -/
theorem sameCells_extensions (one : Tree.Visit Relation → Bool) {names : List String} {t' u' : Tuple}
    {outer' : Env} (hsingle : ∀ v ∈ vs, one v = true → p.Single w v)
    (hrooted : Rooted names (vs.filter one)) (hapart : Apart (t.names ++ aliasesOf vs))
    (hapart' : Apart (t'.names ++ aliasesOf (vs.filter one))) (hnames : names ⊆ t.names)
    (hnames' : names ⊆ t'.names) (hsame : SameCells names (t :: outer) (t' :: outer'))
    (hu : u ∈ p.extensions w outer .left vs t)
    (hu' : u' ∈ p.extensions w outer' .left (vs.filter one) t') :
    SameCells (names ++ aliasesOf (vs.filter one)) (u :: outer) (u' :: outer') := by
  induction vs generalizing t t' names with
  | nil =>
    rw [extensions, List.mem_singleton] at hu
    rw [List.filter_nil, extensions, List.mem_singleton] at hu'
    rw [hu, hu', List.filter_nil, aliasesOf_nil, List.append_nil]
    exact hsame
  | cons v vs ih =>
    rw [List.forall_mem_cons] at hsingle
    rw [extensions] at hu
    obtain ⟨row, hrow, hu⟩ := List.mem_flatMap.mp hu
    obtain ⟨hother, hrest⟩ := apart_snoc row hapart
    cases hone : one v with
    | false =>
      rw [List.filter_cons_of_neg (by rw [hone]; exact Bool.false_ne_true)] at hrooted hapart' hu' ⊢
      have hkept : SameCells names ((t ++ [(v.label.aliasName, row)]) :: outer) (t' :: outer') :=
        ((sameCells_append t _ outer).mono hnames).symm.trans hsame
      have hsub : names ⊆ Tuple.names (t ++ [(v.label.aliasName, row)]) := by
        rw [Tuple.names_append]
        exact List.Subset.trans hnames (List.subset_append_left _ _)
      exact ih hsingle.2 hrooted hrest hapart' hsub hnames' hkept hu hu'
    | true =>
      rw [List.filter_cons_of_pos hone] at hrooted hapart' hu' ⊢
      rw [extensions] at hu'
      obtain ⟨row', hrow', hu'⟩ := List.mem_flatMap.mp hu'
      obtain ⟨hother', hrest'⟩ := apart_snoc row' hapart'
      have hrows : p.joinedRows w outer .left t v = p.joinedRows w outer' .left t' v := by
        rw [joinedRows, joinedRows, matched_congr hrooted.1 hsame hnames hnames' hother hother']
      obtain ⟨found, hfound⟩ :=
        (hsingle.1 hone).joinedRows outer' (hnames' hrooted.1) hother'
      rw [hrows, hfound, List.mem_singleton] at hrow
      rw [hfound, List.mem_singleton] at hrow'
      rw [hrow] at hu hrest
      rw [hrow'] at hu' hrest'
      rw [aliasesOf_cons, ← List.singleton_append, ← List.append_assoc]
      refine ih hsingle.2 hrooted.2 hrest hrest' ?_ ?_
        (hsame.snoc hnames hnames' hother hother' found) hu hu'
      · rw [Tuple.names_append]
        exact List.append_subset.mpr ⟨List.Subset.trans hnames (List.subset_append_left _ _),
          List.subset_append_right _ _⟩
      · rw [Tuple.names_append]
        exact List.append_subset.mpr ⟨List.Subset.trans hnames' (List.subset_append_left _ _),
          List.subset_append_right _ _⟩

end Single

section Wired

variable {relations : Relations}

theorem parentAlias_of_below {s : Schema} {v above : Tree.Visit Relation}
    (h : Relations.Below s above v) : parentAlias v = above.label.aliasName := by
  rw [parentAlias, Tree.Visit.parent?, h.1]
  rfl

theorem rooted_of_chain {s : Schema} {start : Tree.Visit Relation} {names : List String}
    (h : Relations.Chain s relations start vs) (hstart : start.label.aliasName ∈ names) :
    Rooted names vs := by
  induction vs generalizing start names with
  | nil => trivial
  | cons v vs ih =>
    refine ⟨?_, ih h.2.2 (List.mem_append_right _ (List.mem_singleton.mpr rfl))⟩
    rw [parentAlias_of_below h.2.1]
    exact hstart

/-- Places in order are joined below what was joined before, if those above them are accepted too. -/
theorem rooted_of_ordered {s : Schema} (accepts : Tree.Visit Relation → Bool)
    (hup : ∀ w v, Relations.Below s w v → accepts v = true → accepts w = true)
    {seen : List (Tree.Visit Relation)} {names : List String}
    (hordered : Relations.Ordered s seen vs)
    (hseen : ∀ w ∈ seen, accepts w = true → w.label.aliasName ∈ names) :
    Rooted names (vs.filter fun v => v.label.isJoined && accepts v) := by
  induction vs generalizing seen names with
  | nil => trivial
  | cons v vs ih =>
    obtain ⟨⟨w, hw, hbelow⟩, hrest⟩ := hordered
    have hparent : parentAlias v = w.label.aliasName := parentAlias_of_below hbelow
    cases hjoined : v.label.isJoined && accepts v with
    | true =>
      rw [List.filter_cons, if_pos hjoined]
      refine ⟨?_, ih hrest ?_⟩
      · rw [hparent]
        exact hseen w hw (hup w v hbelow (Bool.and_eq_true_iff.mp hjoined).2)
      · intro x hx haccepts
        rcases List.mem_append.mp hx with hold | hnew
        · exact List.mem_append_left _ (hseen x hold haccepts)
        · rw [List.mem_singleton.mp hnew]
          exact List.mem_append_right _ (List.mem_singleton.mpr rfl)
    | false =>
      rw [List.filter_cons, if_neg (by rw [hjoined]; exact Bool.false_ne_true)]
      refine ih hrest ?_
      intro x hx haccepts
      rcases List.mem_append.mp hx with hold | hnew
      · exact hseen x hold haccepts
      · rw [List.mem_singleton.mp hnew] at haccepts ⊢
        rw [haccepts, Bool.and_true, hbelow.isJoined, Bool.not_eq_false'] at hjoined
        rw [(hbelow.2.embedded (Relation.isEmbedded_iff.mp hjoined)).2.1]
        exact hseen w hw (hup w v hbelow haccepts)

/-- The root reads the table under its own name. -/
theorem factor_root (hs : p.schema.Sound) (htable : p.table ∈ p.schema.tables)
    (hwired : relations.Wired p.schema p.table) (f : HoleFiller) :
    (p.factor relations.root).filled f = .table p.table.name (some relations.root.aliasName) := by
  rw [factor, hwired.rootTable, hs.table_id htable, Factor.filled]

/-- The rows of the root are those of the table. -/
theorem tableRows_root (hs : p.schema.Sound) (htable : p.table ∈ p.schema.tables)
    (hwired : relations.Wired p.schema p.table) (w : World) :
    p.tableRows w relations.root = w.database.tables p.table.name := by
  rw [tableRows, hwired.rootTable, hs.table_id htable]

/-- The places that a FROM clause joins. -/
def joinedVisits (relations : Relations) (accepts : Tree.Visit Relation → Bool) :
    List (Tree.Visit Relation) :=
  relations.visits.filter fun v => v.label.isJoined && accepts v

theorem joinedVisits_eq (hwired : relations.Wired p.schema p.table)
    (accepts : Tree.Visit Relation → Bool) : joinedVisits relations accepts =
      relations.lowerVisits.filter fun v => v.label.isJoined && accepts v := by
  rw [joinedVisits, Relations.visits_eq, List.filter_cons, hwired.root_not_joined, Bool.false_and,
    if_neg Bool.false_ne_true]

/-- A place below another with a row source of its own is joined where it is accepted. -/
theorem mem_joinedVisits {accepts : Tree.Visit Relation → Bool} {above v : Tree.Visit Relation}
    (hv : v ∈ relations.visits) (hbelow : Relations.Below p.schema above v)
    (hown : v.label.isEmbedded = false) (haccepts : accepts v = true) :
    v ∈ joinedVisits relations accepts := by
  refine List.mem_filter.mpr ⟨hv, ?_⟩
  rw [hbelow.isJoined, hown, haccepts]
  rfl

theorem rooted_joinedVisits (hwired : relations.Wired p.schema p.table)
    {accepts : Tree.Visit Relation → Bool}
    (hup : ∀ w v, Relations.Below p.schema w v → accepts v = true → accepts w = true) :
    Rooted [relations.root.aliasName] (joinedVisits relations accepts) := by
  rw [joinedVisits_eq hwired]
  apply rooted_of_ordered accepts hup hwired.ordered
  intro w hw _
  rw [List.mem_singleton.mp hw]
  exact List.mem_singleton.mpr rfl

theorem apart_joinedVisits (hwired : relations.Wired p.schema p.table)
    (accepts : Tree.Visit Relation → Bool) :
    Apart ([relations.root.aliasName] ++ aliasesOf (joinedVisits relations accepts)) := by
  have hapart := apart_fromClause hwired accepts
  rw [fromClause, joinAll, aliases_foldl_join] at hapart
  exact hapart

/-- What is reached by to-one steps shows a single row. -/
theorem single_of_reached (hs : p.schema.Sound) (hwired : relations.Wired p.schema p.table)
    (hkeyed : w.database.Keyed w.dialect p.schema) {v : Tree.Visit Relation}
    (hv : v ∈ relations.visits) (hjoined : v.label.isJoined = true)
    (hreached : Relations.reachedToOne v = true) : p.Single w v := by
  intro outer t hparent hother
  rcases hwired.visit_cases hv with rfl | ⟨above, _, hbelow⟩
  · rw [hwired.root_not_joined] at hjoined
    cases hjoined
  · have hone : v.label.isToOne = true := by
      rw [Relations.reachedToOne, Tree.Visit.lineage, List.all_cons, Bool.and_eq_true] at hreached
      exact hreached.1
    have hkind : v.label.kind = .navigation false := by
      unfold Relation.isJoined at hjoined
      unfold Relation.isToOne at hone
      split at hone
      · rename_i hroot
        rw [hroot] at hjoined
        cases hjoined
      · rename_i hembedded
        rw [hembedded] at hjoined
        cases hjoined
      · assumption
      · cases hone
    exact matched_length hs hkeyed hbelow.2.placed hbelow.2.pairs (hbelow.2.single hkind) hparent
      hother

end Wired

end Planner

end ShapeSql
