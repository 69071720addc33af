import ShapeSql.Proofs.Bind.Paged
import ShapeSql.Proofs.Bind.Safety
import ShapeSql.Proofs.Plan.Sorted
import ShapeSql.Proofs.Plan.WrittenOnce

namespace ShapeSql

open Sql Planning

/-- No query in a fragment is ordered. -/
def Sql.Fragment.Unsorted : Fragment → Prop
  | .expr e => e.Unsorted
  | .order terms => ∀ t ∈ terms, t.expr.Unsorted
  | .assignments _ | .rows _ => True

section Fillings

/-- A list of parameters asks for nothing but the column. -/
theorem Sql.Expr.unsorted_inList {α : Type} {column : Expr} (h : column.Unsorted) (name : α → String)
    (items : List α) (negate : Bool) :
    (Expr.inList column (items.map fun a => .param (name a)) negate).Unsorted := by
  have hnone : ∀ a, (Expr.param (name a)).collect .orderings () = [] := fun _ => by simp
  rw [Expr.Unsorted, Expr.collect_inList_of_keeps (fun _ => rfl), ← exprsCollect_eq,
    exprsCollect_map hnone, List.append_nil]
  exact h

theorem Predicate.inList_unsorted {p : Predicate} (h : Expr.Unsorted p.column) (items : List Value) :
    (p.inList items).fragment.Unsorted := by
  have hmembers : ∀ negate,
      (Expr.inList p.column ((p.members items).map fun m => .param m.1) negate).Unsorted :=
    Expr.unsorted_inList h Prod.fst _
  have hnulls : ∀ negate, (Expr.isNull p.column negate).Unsorted := by
    intro negate
    rw [Expr.Unsorted, Expr.collect]
    exact h
  rcases p.inList_cases items with ⟨_, hfill⟩ | ⟨_, _, hfill⟩ | ⟨_, _, hfill⟩ | ⟨_, _, hfill⟩
  · rw [hfill, Fragment.Unsorted]
    split
    · exact Expr.unsorted_of_nil Expr.collect_tautology
    · exact Expr.unsorted_of_nil (by simp [Expr.contradiction])
  · rw [hfill]
    exact hnulls p.negate
  · rw [hfill]
    exact hmembers p.negate
  · rw [hfill, Fragment.Unsorted]
    split
    · rw [Expr.Unsorted, Expr.collect_and]
      exact (hmembers true).append (hnulls true)
    · rw [Expr.Unsorted, Expr.collect_or]
      exact (hmembers false).append (hnulls false)

theorem Predicate.Makes.unsorted {p : Predicate} {value : Value} {f : Filling}
    (hmakes : p.Makes value f) (h : Expr.Unsorted p.column) : f.fragment.Unsorted := by
  cases hmakes with
  | nothing => exact Expr.unsorted_of_nil Expr.collect_tautology
  | null =>
    rw [Filling.without, Fragment.Unsorted, Expr.Unsorted, Expr.collect]
    exact h
  | list => exact Predicate.inList_unsorted h _
  | compare | like =>
    rw [Filling.expr, Fragment.Unsorted, Expr.Unsorted, Expr.collect]
    exact h.append (by simp)

theorem keyMatch_unsorted {columns : List (Expr × Path)} (h : ∀ c ∈ columns, Expr.Unsorted c.1)
    (base : String) (value : Value) : (keyMatch columns base value).fragment.Unsorted := by
  rcases keyMatch_cases columns base value with ⟨_, hmatch⟩ | ⟨column, field, rfl, _, hmatch⟩ | hmatch
  · rw [hmatch]
    exact Expr.unsorted_of_nil (by simp [Expr.contradiction])
  · rw [hmatch]
    exact Expr.unsorted_inList (h _ List.mem_cons_self) Prod.fst _ _
  · rw [hmatch, keyBranches, Fragment.Unsorted, Expr.Unsorted, Expr.collect_anyOf, Unsorted,
      List.forall_mem_flatMap]
    intro branch hbranch
    obtain ⟨cells, hcells, hbranch⟩ := List.mem_filterMap.mp hbranch
    obtain ⟨matched, hmatched, rfl⟩ := Option.map_eq_some_iff.mp hbranch
    have hall : matched = Expr.allOf (cells.map KeyCell.equality) := by
      rw [Expr.allOf, hmatched]
      rfl
    rw [Expr.collect, hall]
    refine Expr.unsorted_allOf fun e he => ?_
    obtain ⟨cell, hcell, rfl⟩ := List.mem_map.mp he
    obtain ⟨key, hkey, hcolumn, _⟩ := cell_of_listed hcells hcell
    rw [KeyCell.equality, Expr.Unsorted, Expr.collect_eq, hcolumn]
    exact (h key hkey).append (by simp)

theorem dynamicOrder_unsorted {s : Schema} {path : Path} {first : OrderTarget}
    {others : List OrderTarget} {value : Value} {terms : List OrderTerm}
    (h : dynamicOrder s path first others value = .ok terms) : ∀ t ∈ terms, t.expr.Unsorted := by
  intro t ht
  obtain ⟨target, _, column, _, heq⟩ := term_of_dynamicOrder h ht
  rw [heq]
  exact Expr.unsorted_of_nil (Expr.collect_columnOf _ _)

/-- What a rule puts into its hole has no ordered queries if the rule has none. -/
theorem HoleRule.fill_unsorted {s : Schema} {rule : HoleRule} {value : Value} {f : Filling}
    (h : rule.action.Unsorted) (hfill : rule.fill s value = .ok f) : f.fragment.Unsorted := by
  obtain ⟨hole, path, action⟩ := rule
  cases action with
  | predicate p =>
    cases hfill
    exact (p.fill_makes value).unsorted h
  | guard ignore expr =>
    cases hfill
    show Expr.Unsorted (if _ then _ else _)
    split
    · exact Expr.unsorted_of_nil Expr.collect_tautology
    · exact h
  | order expr =>
    obtain ⟨direction, _, hpure⟩ := except_bind_ok.mp hfill
    cases hpure
    exact List.forall_mem_singleton.mpr h
  | dynamicOrder first others =>
    obtain ⟨terms, hterms, hpure⟩ := except_bind_ok.mp hfill
    cases hpure
    exact dynamicOrder_unsorted hterms
  | assign column param ignore =>
    rcases HoleRule.fill_assign hfill with ⟨_, rfl⟩ | ⟨_, rfl⟩
    · trivial
    · trivial
  | rows source =>
    obtain ⟨_, _, rfl⟩ := RowsSource.fill_ok_iff.mp hfill
    trivial
  | keyMatch columns base =>
    cases hfill
    exact keyMatch_unsorted h base value

end Fillings

namespace Sql.HoleFiller

variable {subs : Substitution}

/-- Filling unordered queries leaves them unordered. -/
theorem unsorted_filled {f : HoleFiller} (hf : f.Unsorted) {e : Expr} (he : e.Unsorted) :
    (e.filled f).Unsorted := by
  intro items hitems
  rcases (e.related hf.relates).given items hitems with hnil | ⟨before, hbefore, rfl⟩
  · exact hnil
  · rw [he before hbefore]
    rfl

theorem filling_unsorted {inner : HoleFiller} (hinner : inner.Unsorted)
    (h : ∀ id fragment, subs.find? id = some fragment → fragment.Unsorted) :
    (filling subs inner).Unsorted where
  expr id := by
    rw [filling]
    dsimp only
    split
    · rename_i e hfound
      exact unsorted_filled hinner (h id _ hfound)
    · exact .nil
  order id := by
    rw [filling]
    dsimp only
    split
    · rename_i terms hfound
      have hterms : ∀ t ∈ terms, t.expr.Unsorted := h id _ hfound
      clear hfound
      induction terms with
      | nil => exact .nil
      | cons t rest ih =>
        rw [List.forall_mem_cons] at hterms
        exact (unsorted_filled hinner hterms.1).append (ih hterms.2)
    · exact .nil

theorem nested_unsorted (h : ∀ id fragment, subs.find? id = some fragment → fragment.Unsorted) :
    ∀ depth, (nested subs depth).Unsorted
  | 0 => filling_unsorted ⟨fun _ => .nil, fun _ => .nil⟩ h
  | depth + 1 => filling_unsorted (nested_unsorted h depth) h

end Sql.HoleFiller

/-- What is bound for rules without ordered queries has none. -/
theorem Binding.Binds.unsorted {s : Schema} {args : Value} {rules : List HoleRule} {b : Binding}
    (hb : b.Binds s args rules) (h : ∀ rule ∈ rules, rule.action.Unsorted) :
    (HoleFiller.ofSubstitution b.subs).Unsorted := by
  refine HoleFiller.nested_unsorted (fun id fragment hfound => ?_) _
  obtain ⟨rule, hrule, f, hfill, _, rfl⟩ := hb.bound id fragment hfound
  exact HoleRule.fill_unsorted (h rule hrule) hfill

/-- A bound ordering is by its terms, with the holes in them filled. -/
theorem Sql.HoleFiller.ofSubstitution_order {subs : Substitution} {id : HoleId}
    {terms : List OrderTerm} (h : subs.find? id = some (.order terms)) :
    ∃ inner, (HoleFiller.ofSubstitution subs).order id =
      terms.map fun t => .term (t.filled inner) := by
  obtain ⟨inner, hsame⟩ := ofSubstitution_eq_filling subs
  refine ⟨inner, ?_⟩
  rw [hsame, filling]
  simp only [h]

/-- The place as an ordering may name it. -/
def Relation.orderTarget (r : Relation) : OrderTarget := ⟨r.aliasName, r.table, r.path⟩

/-- A column of a place of the output. -/
abbrev PlaceColumn := Relation × Column

namespace PlaceColumn

/-- The column as an ORDER BY names it. -/
def expr (key : PlaceColumn) : Expr := .columnOf key.1.aliasName key.2.name

/-- The row source and the column, up to case. -/
def names (key : PlaceColumn) : String × String :=
  (lowerAscii key.1.aliasName, lowerAscii key.2.name)

end PlaceColumn

namespace Planner

/-- The places that a value may order by, the target first. -/
def orderPlaces (p : Planner) (relations : Relations) : List Relation :=
  relations.root ::
    ((relations.visits.drop 1).filter (canOrderBy p.arguments.isPaged)).map Tree.Visit.label

/-- The column of this name in the table of a place. -/
def columnOfPlace (p : Planner) (name : String) (place : Relation) : Option PlaceColumn :=
  ((p.schema.table place.table).findColumn name).map fun column => (place, column)

/-- The place that an entry of a value means. -/
def entryPlace (p : Planner) (relations : Relations) (e : OrderEntry) : Option Relation :=
  match e.table with
  | none => some relations.root
  | some name => (p.orderPlaces relations).find? fun place =>
      sameName (p.schema.table place.table).name name || sameName place.path.display name

/-- The columns that an order-by argument asks for with a value. -/
def askedColumns (p : Planner) (relations : Relations) (field : Field) (value : Value) :
    List PlaceColumn :=
  match field.directives.orderBy with
  | none => []
  | some (.column named column) =>
    let place := match named with
      | none => some relations.root
      | some name => (p.orderRelation relations name).map Tree.Visit.label
    (place.bind (p.columnOfPlace column)).toList
  | some .direction =>
    ((p.resolver.findColumn p.table field).map fun column => (relations.root, column)).toList
  | some .dynamic => value.presentItems.filterMap fun item =>
      (OrderEntry.ofValue field.path item).toOption.bind fun e =>
        (p.entryPlace relations e).bind (p.columnOfPlace e.column)

/-- The columns that the orderings ask for with these arguments. -/
def orderedColumns (p : Planner) (relations : Relations) (args : Value) : List PlaceColumn :=
  p.arguments.orderBy.flatMap fun field =>
    p.askedColumns relations field (args.entry field.path)

/-- No column is asked for twice, and none of the root key by an ordering of a page. -/
structure OrdersOnce (p : Planner) (relations : Relations) (args : Value) : Prop where
  asked : (p.orderedColumns relations args).Nodup
  key : p.arguments.isPaged = true → ∀ column ∈ p.table.keyColumns,
    (relations.root, column) ∉ p.orderedColumns relations args

instance (p : Planner) (relations : Relations) (args : Value) :
    Decidable (p.OrdersOnce relations args) :=
  decidable_of_iff ((p.orderedColumns relations args).Nodup ∧
      (p.arguments.isPaged = true → ∀ column ∈ p.table.keyColumns,
        (relations.root, column) ∉ p.orderedColumns relations args))
    ⟨fun h => ⟨h.1, h.2⟩, fun h => ⟨h.asked, h.key⟩⟩

section Asked

variable {p : Planner} {relations : Relations} {field : Field}

/-- What comes of a place and a name is a column of the place. -/
theorem columnOfPlace_eq_some {name : String} {place : Relation} {column : Column}
    (h : (p.schema.table place.table).findColumn name = some column) :
    p.columnOfPlace name place = some (place, column) := by
  rw [columnOfPlace, h, Option.map_some]

/-- An entry of a value is a term for the column that it asks for. -/
theorem term_asked {path : Path} {e : OrderEntry} {t : OrderTerm}
    (h : e.term p.schema path relations.root.orderTarget
      (((relations.visits.drop 1).filter (canOrderBy p.arguments.isPaged)).map fun v =>
        v.label.orderTarget) = .ok t) :
    ∃ key, (p.entryPlace relations e).bind (p.columnOfPlace e.column) = some key ∧
      t.expr = key.expr := by
  have hplaces : relations.root.orderTarget ::
      ((relations.visits.drop 1).filter (canOrderBy p.arguments.isPaged)).map (fun v =>
        v.label.orderTarget) = (p.orderPlaces relations).map Relation.orderTarget := by
    rw [orderPlaces, List.map_cons, List.map_map]
    rfl
  obtain ⟨found, hfound, h⟩ := except_bind_ok.mp h
  have hplace : ∃ place, p.entryPlace relations e = some place ∧ found = place.orderTarget := by
    unfold OrderEntry.target at hfound
    unfold entryPlace
    cases htable : e.table with
    | none =>
      rw [htable] at hfound
      cases hfound
      exact ⟨_, rfl, rfl⟩
    | some name =>
      rw [htable] at hfound
      simp only [hplaces, List.find?_map] at hfound
      split at hfound
      · rename_i target hnamed
        cases hfound
        obtain ⟨place, hplace, rfl⟩ := Option.map_eq_some_iff.mp hnamed
        exact ⟨place, hplace, rfl⟩
      · cases hfound
  obtain ⟨place, hplace, rfl⟩ := hplace
  simp only at h
  split at h
  · cases h
  · rename_i column hcolumn
    obtain ⟨direction, _, hpure⟩ := except_bind_ok.mp h
    cases hpure
    refine ⟨(place, column), ?_, rfl⟩
    rw [hplace, Option.bind_some]
    exact columnOfPlace_eq_some hcolumn

/-- The terms of a value are those of the columns that its entries ask for. -/
theorem terms_asked {path : Path} {items : List Value} {terms : List OrderTerm}
    {first : OrderTarget} {others : List OrderTarget} {column? : OrderEntry → Option PlaceColumn}
    (hterm : ∀ e t, e.term p.schema path first others = .ok t →
      ∃ key, column? e = some key ∧ t.expr = key.expr)
    (h : (items.mapM fun entry => do
      let e ← OrderEntry.ofValue path entry
      e.term p.schema path first others) = .ok terms) :
    terms.map OrderTerm.expr =
      (items.filterMap fun item => (OrderEntry.ofValue path item).toOption.bind column?).map
        PlaceColumn.expr := by
  have heach := forall₂_of_mapM_ok h
  clear h
  induction heach with
  | nil => rfl
  | @cons item t items terms hitem _ ih =>
    obtain ⟨e, he, ht⟩ := except_bind_ok.mp hitem
    obtain ⟨key, hkey, hexpr⟩ := hterm e t ht
    have hfound : (OrderEntry.ofValue path item).toOption.bind column? = some key := by
      rw [he]
      exact hkey
    simp only [List.filterMap_cons, hfound, List.map_cons, ih, hexpr]

/-- The rule of an ordering lists the columns that its argument asks for. -/
theorem fill_asked {action : Action} {hole : HoleId} {args : Value} {f : Filling}
    (haction : p.orderAction relations field = .ok (some action))
    (hfill : HoleRule.fill p.schema ⟨hole, field.path, action⟩ args = .ok f) :
    ∃ terms, f.fragment = .order terms ∧ terms.map OrderTerm.expr =
      (p.askedColumns relations field args).map PlaceColumn.expr := by
  have hfixed : ∀ key : PlaceColumn, action = .order key.expr →
      p.askedColumns relations field args = [key] →
        ∃ terms, f.fragment = .order terms ∧ terms.map OrderTerm.expr =
          (p.askedColumns relations field args).map PlaceColumn.expr := by
    rintro key rfl hasked
    obtain ⟨direction, _, hpure⟩ := except_bind_ok.mp hfill
    cases hpure
    refine ⟨_, rfl, ?_⟩
    rw [hasked]
    rfl
  cases asksOrder haction with
  | column horder hexpr =>
    obtain ⟨v, hnamed, _, found, hfound, rfl⟩ := orderColumn_inv hexpr
    refine hfixed (v.label, found) rfl ?_
    rw [askedColumns, horder]
    rcases hnamed with ⟨rfl, rfl⟩ | ⟨name, rfl, hnamed⟩
    · simp only [Option.bind_some, columnOfPlace_eq_some hfound, Option.toList_some]
    · simp only [hnamed, Option.map_some, Option.bind_some, columnOfPlace_eq_some hfound,
        Option.toList_some]
  | @direction column horder hcolumn =>
    refine hfixed (relations.root, column) rfl ?_
    rw [askedColumns, horder]
    simp only [Resolver.findColumn_of_column hcolumn, Option.map_some, Option.toList_some]
  | dynamic horder =>
    obtain ⟨terms, hterms, hpure⟩ := except_bind_ok.mp hfill
    cases hpure
    refine ⟨terms, rfl, ?_⟩
    rw [askedColumns, horder]
    exact terms_asked (fun e t ht => term_asked ht) hterms

/-- An argument without a rule asks for nothing. -/
theorem asked_of_none (h : p.orderAction relations field = .ok none) (value : Value) :
    p.askedColumns relations field value = [] := by
  cases asksOrder h with
  | nothing horder => rw [askedColumns, horder]

end Asked

/-- The items are by these columns, in order. -/
def SortsBy (items : List OrderItem) (keys : List PlaceColumn) : Prop :=
  items.map OrderItem.column? = keys.map fun key => some key.names

theorem SortsBy.append {items others : List OrderItem} {keys more : List PlaceColumn}
    (h : SortsBy items keys) (h' : SortsBy others more) : SortsBy (items ++ others) (keys ++ more) := by
  rw [SortsBy, List.map_append, List.map_append, h, h']

/-- Nothing is ordered by twice exactly if no two of the columns have the same names. -/
theorem SortsBy.ordersOnce_iff {items : List OrderItem} {keys : List PlaceColumn}
    (h : SortsBy items keys) : Sql.OrdersOnce items ↔ (keys.map PlaceColumn.names).Nodup := by
  have hnames : items.filterMap OrderItem.column? = keys.map PlaceColumn.names := by
    have hid := congrArg (List.filterMap id) h
    rw [List.filterMap_map, List.filterMap_map] at hid
    rw [← List.filterMap_eq_map]
    exact hid
  have hcolumns : ∀ item ∈ items, item.column?.isSome = true := by
    intro item hitem
    have hmem := List.mem_map_of_mem (f := OrderItem.column?) hitem
    rw [h] at hmem
    obtain ⟨key, _, hkey⟩ := List.mem_map.mp hmem
    rw [← hkey]
    rfl
  exact ⟨fun hall => hnames ▸ hall.once, fun hdistinct => ⟨hcolumns, hnames ▸ hdistinct⟩⟩

section Bound

variable {p : Planner} {relations : Relations} {d d' : Draft} {args : Value} {b : Binding}
  {rules : List HoleRule}

theorem sortsBy_terms (inner : HoleFiller) {terms : List OrderTerm} {keys : List PlaceColumn}
    (h : terms.map OrderTerm.expr = keys.map PlaceColumn.expr) :
    SortsBy (terms.map fun t => .term (t.filled inner)) keys := by
  induction terms generalizing keys with
  | nil =>
    obtain rfl := List.map_eq_nil_iff.mp h.symm
    rfl
  | cons t terms ih =>
    cases keys with
    | nil => cases h
    | cons key keys =>
      obtain ⟨hexpr, hrest⟩ := List.cons.inj h
      have hhead : SortsBy [.term (t.filled inner)] [key] := by
        obtain ⟨expr, direction⟩ := t
        obtain rfl : expr = key.expr := hexpr
        rfl
      exact hhead.append (ih hrest)

theorem sortsBy_keyTerms (f : HoleFiller) :
    SortsBy (orderItemsFilled f (p.keyTerms relations.root.aliasName))
      (p.table.keyColumns.map fun column => (relations.root, column)) := by
  rw [keyTerms, rootKey]
  induction p.table.keyColumns with
  | nil => rfl
  | cons column rest ih => exact congrArg (some _ :: ·) ih

/-- Bound orderings are by the columns that they ask for. -/
theorem orderItems_sortsBy (hb : b.Binds p.schema args rules) {fields : List Field}
    {items : List OrderItem} (hrun : (p.orderItems relations fields).run d = .ok (items, d'))
    (hrules : ∀ rule ∈ d'.rules, rule ∈ rules) :
    SortsBy (orderItemsFilled (.ofSubstitution b.subs) items)
      (fields.flatMap fun field => p.askedColumns relations field (args.entry field.path)) := by
  induction fields generalizing d items with
  | nil =>
    simp only [orderItems, run_pure_ok] at hrun
    obtain ⟨rfl, rfl⟩ := hrun
    rfl
  | cons field rest ih =>
    rw [List.flatMap_cons]
    rcases orderItems_cons hrun with
        ⟨hfound, hrest⟩ | ⟨action, hole, between, others, hfound, hhole, hothers, rfl⟩
    · rw [asked_of_none hfound]
      exact ih hrest
    · cases hhole
      obtain ⟨⟨⟨more, hmore, _⟩, _⟩, _⟩ := orderItems_ordered hothers
      have hrule : (⟨⟨d.nextHole⟩, field.path, action⟩ : HoleRule) ∈ rules := by
        refine hrules _ ?_
        rw [hmore]
        exact List.mem_append_left _ (List.mem_append_right _ (List.mem_singleton.mpr rfl))
      obtain ⟨f, hfill, hbound⟩ := hb.filled _ hrule
      obtain ⟨terms, hterms, hasked⟩ := fill_asked hfound hfill
      rw [hterms] at hbound
      obtain ⟨inner, hfilled⟩ := HoleFiller.ofSubstitution_order hbound
      rw [orderItemsFilled, hfilled]
      exact (sortsBy_terms inner hasked).append (ih hothers)

end Bound

section Places

variable {p : Planner} {relations : Relations}

/-- A column of a table that a place of the output stands for. -/
structure Sited (p : Planner) (relations : Relations) (key : PlaceColumn) : Prop where
  place : key.1 ∈ relations.all
  own : key.1.isEmbedded = false
  column : key.2 ∈ (p.schema.table key.1.table).columns

/-- Places are told apart by their names, and the columns of a place by theirs. -/
theorem Sited.eq_of_names (hs : p.schema.Sound) (hnamed : p.schema.NamedApart)
    (htable : p.table ∈ p.schema.tables) (hwired : relations.Wired p.schema p.table)
    {key other : PlaceColumn} (hkey : p.Sited relations key) (hother : p.Sited relations other)
    (h : key.names = other.names) : key = other := by
  obtain ⟨place, column⟩ := key
  obtain ⟨otherPlace, otherColumn⟩ := other
  obtain ⟨halias, hname⟩ := Prod.mk.inj h
  have hplace : place = otherPlace := hwired.given.numbered.eq_of_sameName hkey.place hother.place
    hkey.own hother.own (beq_iff_eq.mpr halias)
  subst hplace
  have hmem := (hwired.placed htable hkey.place).table_mem hs
  have hcolumn : column = otherColumn :=
    List.inj_on_of_nodup_map (hnamed _ hmem) hkey.column hother.column hname
  rw [hcolumn]

theorem nodup_names_iff (hs : p.schema.Sound) (hnamed : p.schema.NamedApart)
    (htable : p.table ∈ p.schema.tables) (hwired : relations.Wired p.schema p.table)
    {keys : List PlaceColumn} (h : ∀ key ∈ keys, p.Sited relations key) :
    (keys.map PlaceColumn.names).Nodup ↔ keys.Nodup :=
  ⟨fun hnames => hnames.of_map, fun hkeys => hkeys.map_on fun key hkey other hother hsame =>
    Sited.eq_of_names hs hnamed htable hwired (h key hkey) (h other hother) hsame⟩

theorem isBound_own {r : Relation} (h : r.isBound = true) : r.isEmbedded = false := by
  rw [Relation.isBound, Bool.and_eq_true_iff] at h
  simpa using h.2

/-- A column of the target is one of the place that it has in the output. -/
theorem sited_root (hs : p.schema.Sound) (htable : p.table ∈ p.schema.tables)
    (hwired : relations.Wired p.schema p.table) {column : Column} (h : column ∈ p.table.columns) :
    p.Sited relations (relations.root, column) where
  place := relations.root_mem_all
  own := hwired.root_not_embedded
  column := by
    rw [hwired.rootTable, hs.table_id htable]
    exact h

theorem sited_columnOfPlace {place : Relation} (hplace : place ∈ relations.all)
    (hown : place.isEmbedded = false) {name : String} {key : PlaceColumn}
    (h : p.columnOfPlace name place = some key) : p.Sited relations key := by
  obtain ⟨column, hcolumn, rfl⟩ := Option.map_eq_some_iff.mp h
  exact ⟨hplace, hown, mem_of_findNamed hcolumn⟩

theorem sited_asked (hs : p.schema.Sound) (htable : p.table ∈ p.schema.tables)
    (hwired : relations.Wired p.schema p.table) {field : Field} {value : Value} {key : PlaceColumn}
    (h : key ∈ p.askedColumns relations field value) : p.Sited relations key := by
  have hroot := relations.root_mem_all
  unfold askedColumns at h
  split at h
  · cases h
  · obtain ⟨place, hplace, hkey⟩ := Option.bind_eq_some_iff.mp (Option.mem_toList.mp h)
    split at hplace
    · cases hplace
      exact sited_columnOfPlace hroot hwired.root_not_embedded hkey
    · obtain ⟨v, hv, rfl⟩ := Option.map_eq_some_iff.mp hplace
      unfold orderRelation at hv
      have hnamed := List.find?_some hv
      have hbound : v.label.isBound = true := (Bool.and_eq_true_iff.mp hnamed).1
      exact sited_columnOfPlace (Relations.label_mem_all (List.mem_of_find?_eq_some hv))
        (isBound_own hbound) hkey
  · obtain ⟨column, hcolumn, rfl⟩ := Option.map_eq_some_iff.mp (Option.mem_toList.mp h)
    exact sited_root hs htable hwired (Resolver.mem_of_findColumn hcolumn)
  · obtain ⟨item, _, hkey⟩ := List.mem_filterMap.mp h
    obtain ⟨e, _, hkey⟩ := Option.bind_eq_some_iff.mp hkey
    obtain ⟨place, hplace, hkey⟩ := Option.bind_eq_some_iff.mp hkey
    have hoffered : place ∈ p.orderPlaces relations := by
      unfold entryPlace at hplace
      split at hplace
      · cases hplace
        exact List.mem_cons_self
      · exact List.mem_of_find?_eq_some hplace
    rcases List.mem_cons.mp hoffered with rfl | hlower
    · exact sited_columnOfPlace hroot hwired.root_not_embedded hkey
    · obtain ⟨v, hv, rfl⟩ := List.mem_map.mp hlower
      obtain ⟨hmem, hallowed⟩ := List.mem_filter.mp hv
      exact sited_columnOfPlace (Relations.label_mem_all (List.mem_of_mem_drop hmem))
        (isBound_own (Bool.and_eq_true_iff.mp hallowed).1) hkey

/-- The columns that are asked for, with the root key after them, differ exactly if no column is asked
for twice and none of the key at all. -/
theorem ordersOnce_iff (hs : p.schema.Sound) (hnamed : p.schema.NamedApart)
    (htable : p.table ∈ p.schema.tables) (args : Value) :
    p.OrdersOnce relations args ↔ (p.orderedColumns relations args ++
      if p.arguments.isPaged then p.table.keyColumns.map fun column => (relations.root, column)
      else []).Nodup := by
  have hkey : (p.table.keyColumns.map fun column => (relations.root, column)).Nodup := by
    have hcolumns : p.table.keyColumns.Nodup := by
      rw [(hs.laid p.table htable).keyColumns_eq]
      exact (hnamed p.table htable).of_map.filter _
    exact hcolumns.map fun column other h => (Prod.mk.inj h).2
  rw [List.nodup_append]
  cases hpaged : p.arguments.isPaged with
  | true =>
    simp only [if_true]
    refine ⟨fun h => ⟨h.asked, hkey, fun key hasked other hother heq => ?_⟩,
      fun h => ⟨h.1, fun _ column hcolumn hasked => ?_⟩⟩
    · obtain ⟨column, hcolumn, rfl⟩ := List.mem_map.mp hother
      exact h.key hpaged column hcolumn (heq ▸ hasked)
    · exact h.2.2 _ hasked _ (List.mem_map.mpr ⟨column, hcolumn, rfl⟩) rfl
  | false =>
    simp only [Bool.false_eq_true, if_false]
    exact ⟨fun h => ⟨h.asked, List.nodup_nil, fun _ _ _ hmem => absurd hmem List.not_mem_nil⟩,
      fun h => ⟨h.1, fun htrue => absurd (hpaged.symm.trans htrue) Bool.false_ne_true⟩⟩

end Places

end Planner

namespace Compiler

/-- A bound select orders by no column twice, in the query itself and in every query within it, exactly
if it is a count, which has no ordering, or no column is asked for twice and none of the root key in a
page. -/
theorem compile_ordersOnce {declarations : List TableDeclaration} {schema : Schema}
    {setup : CompilerSetup} {c : Compiler} {spec : QuerySpec} {compiled : Compiled}
    (hschema : Schema.build declarations = .ok schema) (hsetup : setup.schema = some schema)
    (hbuild : setup.build = .ok c) (hcompile : c.compile spec = .ok compiled)
    (hselect : spec.operation = .select) :
    ∃ p relations, Plan.PlannedBy c.resolver c.options.keyWindowAlias spec p ∧
      compiled.plan.relations = some relations ∧
      ∀ args bound, compiled.bind args = .ok bound →
        ∃ query, compiled.resolved args = .ok [.query query] ∧
          Batch.render [.query query] .empty = .ok bound.sql ∧
          ((∀ items ∈ query.collect .orderings (), OrdersOnce items) ↔
            spec.outputKind = .count ∨ p.OrdersOnce relations args) := by
  obtain ⟨p, d, query, relations, hp, hrun, hbatch, hrelations, hrules, _, hsame, hs, hkeyed, htable⟩ :=
    select_of_compile hschema hsetup hbuild hcompile hselect
  have hnamed : p.schema.NamedApart := by
    rw [hsame, (ofSpec_of_compile hcompile).1, CompilerSetup.schema_of_build hsetup hbuild]
    exact Schema.build_namedApart hschema
  have hwired : relations.Wired p.schema p.table :=
    Planner.select_wired hs hkeyed htable Draft.sound_default hrun
  obtain ⟨order, between, after, horder, hafter, hunsorted, hsorted⟩ := Planner.select_sortedBy hrun
  refine ⟨p, relations, hp, hrelations, fun args bound hbind => ?_⟩
  obtain ⟨subs, _, hsubs, hresolved, hrender⟩ := Compiled.query_of_bind hbatch hbind
  refine ⟨_, hresolved, hrender, ?_⟩
  obtain ⟨b, _, hb, _, _, _, rfl, _⟩ :=
    Plan.binds_of_substitution (Plan.ofSpec_sound (ofSpec_of_compile hcompile).2) hsubs
  rw [hrules, ← hsame] at hb
  have hfilled : FilledAs (.ofSubstitution b.subs) (query.collect .orderings ())
      ((query.filled (.ofSubstitution b.subs)).collect .orderings ()) :=
    query.related (hb.unsorted hunsorted).relates
  have hlists : (∀ items ∈ (query.filled (.ofSubstitution b.subs)).collect .orderings (),
      OrdersOnce items) ↔
      OrdersOnce (orderItemsFilled (.ofSubstitution b.subs) (p.sortedItems relations order)) := by
    refine ⟨fun hall => hall _ (hfilled.kept _ (hsorted.own ▸ query.orderBy_mem_orderings)),
      fun hown items hitems => ?_⟩
    rcases hfilled.given items hitems with rfl | ⟨before, hbefore, rfl⟩
    · exact ordersOnce_nil
    · rcases hsorted.within before hbefore with rfl | rfl
      · exact ordersOnce_nil
      · exact hown
  rw [hlists, ← hp.outputKind, Planner.sortedItems]
  by_cases hcount : p.outputKind = .count
  · rw [if_pos hcount]
    exact iff_of_true ordersOnce_nil (Or.inl hcount)
  · rw [if_neg hcount, or_iff_right hcount, Planner.ordersOnce_iff hs hnamed htable,
      ← Planner.nodup_names_iff hs hnamed htable hwired]
    · refine Planner.SortsBy.ordersOnce_iff ?_
      rw [orderItemsFilled_append]
      refine (Planner.orderItems_sortsBy hb horder (hafter ▸ fun _ h => h)).append ?_
      split
      · exact Planner.sortsBy_keyTerms _
      · rfl
    · refine List.forall_mem_append.mpr ⟨fun key hkey => ?_, fun key hkey => ?_⟩
      · obtain ⟨field, _, hasked⟩ := List.mem_flatMap.mp hkey
        exact Planner.sited_asked hs htable hwired hasked
      · split at hkey
        · obtain ⟨column, hcolumn, rfl⟩ := List.mem_map.mp hkey
          exact Planner.sited_root hs htable hwired
            ((hs.laid p.table htable).mem_of_mem_keyColumns hcolumn)
        · cases hkey

/-- A page of pets, sorted by what the caller names and then by the person. -/
def sortedPets : SpecDeclaration where
  operation := .select
  table := some "Pet"
  arguments := [
    ⟨"Sort", .text, false, { (default : Directives) with orderBy := some .dynamic }⟩,
    ⟨"Owner", .text, false,
      { (default : Directives) with orderBy := some (.column (some "Person") "Id") }⟩,
    ⟨"Take", .i32, false, { (default : Directives) with fetch := true }⟩]
  returns := [.many "Pet"]

def byName : Value :=
  .record [("Sort", .list [.text "Name"]), ("Owner", .text "desc"), ("Take", .i32 1)]

/-- The page is bound, and no column is asked for twice. -/
def sortedTest (c : Compiler) (spec : QuerySpec) (compiled : Compiled) : Bool :=
  spec.operation == .select &&
  ((compiled.bind byName).toOption.any fun _ => true) &&
  (Arguments.classify spec.operation spec.arguments.children).toOption.any fun arguments =>
    (Plan.targetTable c.resolver spec).toOption.any fun target =>
      compiled.plan.relations.any fun relations =>
        let p : Planner := ⟨c.resolver, c.options.keyWindowAlias, target, spec.operation,
          spec.output, spec.outputKind, arguments⟩
        decide (p.OrdersOnce relations byName)

/-- The window and the output of the page are sorted by the name, the person and the pet's number. -/
theorem compile_ordersOnce_pets :
    ∃ schema spec compiled bound query, Schema.build kennelDeclarations = .ok schema ∧
      sortedPets.build petShapes = .ok spec ∧
      (⟨schema, default, .exact⟩ : Compiler).compile spec = .ok compiled ∧
      compiled.bind byName = .ok bound ∧ compiled.resolved byName = .ok [.query query] ∧
      Batch.render [.query query] .empty = .ok bound.sql ∧
      ∀ items ∈ query.collect .orderings (), OrdersOnce items := by
  obtain ⟨schema, spec, compiled, hschema, hspec, hcompile, htest⟩ :
      ∃ schema spec compiled, Schema.build kennelDeclarations = .ok schema ∧
        sortedPets.build petShapes = .ok spec ∧
        (⟨schema, default, .exact⟩ : Compiler).compile spec = .ok compiled ∧
        sortedTest ⟨schema, default, .exact⟩ spec compiled = true :=
    exists_compiled (by decide +kernel)
  simp only [sortedTest, Bool.and_eq_true, beq_iff_eq] at htest
  obtain ⟨⟨hselect, hbinds⟩, htest⟩ := htest
  obtain ⟨bound, hbind, _⟩ := exists_ok_of_any hbinds
  obtain ⟨arguments, harguments, htest⟩ := exists_ok_of_any htest
  obtain ⟨target, htarget, htest⟩ := exists_ok_of_any htest
  obtain ⟨found, hfound, htest⟩ := (Option.any_eq_true _ _).mp htest
  have hbuild : (CompilerSetup.mk (some schema) default (some .exact)).build =
      .ok ⟨schema, default, .exact⟩ := rfl
  obtain ⟨p, relations, hp, hrelations, honce⟩ :=
    compile_ordersOnce hschema rfl hbuild hcompile hselect
  obtain rfl := hp.eq htarget harguments
  obtain rfl := Option.some.inj (hfound.symm.trans hrelations)
  obtain ⟨query, hresolved, hrender, hiff⟩ := honce byName bound hbind
  exact ⟨schema, spec, compiled, bound, query, hschema, hspec, hcompile, hbind, hresolved, hrender,
    hiff.mpr (Or.inr (of_decide_eq_true htest))⟩

/-- A page of people, sorted by what the caller names. -/
def sortedPeople : SpecDeclaration where
  operation := .select
  table := some "Person"
  arguments := [
    ⟨"Sort", .text, false, { (default : Directives) with orderBy := some .dynamic }⟩,
    ⟨"Take", .i32, false, { (default : Directives) with fetch := true }⟩]
  returns := [.many "Person"]

def byNumber : Value := .record [("Sort", .list [.text "Id"]), ("Take", .i32 1)]

/-- The statement is bound to a query, which is ordered by one column twice. -/
def sortedTwiceTest (args : Value) (_ : Compiler) (_ : QuerySpec) (compiled : Compiled) : Bool :=
  ((compiled.bind args).toOption.any fun _ => true) &&
  (compiled.resolved args).toOption.any fun batch => batch.any fun st =>
    match st with
    | .query query => (query.collect .orderings ()).any fun items =>
        !decide (items.filterMap OrderItem.column?).Nodup
    | _ => false

/-- People are sorted by their number, which the page adds once more. -/
theorem ordered_twice_people :
    ∃ schema spec compiled bound batch, Schema.build kennelDeclarations = .ok schema ∧
      sortedPeople.build petShapes = .ok spec ∧
      (⟨schema, default, .exact⟩ : Compiler).compile spec = .ok compiled ∧
      compiled.bind byNumber = .ok bound ∧ compiled.resolved byNumber = .ok batch ∧
      ∃ query, .query query ∈ batch ∧ ∃ items ∈ query.collect .orderings (), ¬OrdersOnce items := by
  obtain ⟨schema, spec, compiled, hschema, hspec, hcompile, htest⟩ :
      ∃ schema spec compiled, Schema.build kennelDeclarations = .ok schema ∧
        sortedPeople.build petShapes = .ok spec ∧
        (⟨schema, default, .exact⟩ : Compiler).compile spec = .ok compiled ∧
        sortedTwiceTest byNumber ⟨schema, default, .exact⟩ spec compiled = true :=
    exists_compiled (by decide +kernel)
  obtain ⟨hbinds, htest⟩ := Bool.and_eq_true_iff.mp htest
  obtain ⟨bound, hbind, _⟩ := exists_ok_of_any hbinds
  obtain ⟨batch, hresolved, htest⟩ := exists_ok_of_any htest
  obtain ⟨st, hst, htest⟩ := List.any_eq_true.mp htest
  refine ⟨schema, spec, compiled, bound, batch, hschema, hspec, hcompile, hbind, hresolved, ?_⟩
  split at htest
  · rename_i query
    obtain ⟨items, hitems, htwice⟩ := List.any_eq_true.mp htest
    exact ⟨query, hst, items, hitems, fun h => by simp [h.once] at htwice⟩
  · cases htest

end Compiler

end ShapeSql
