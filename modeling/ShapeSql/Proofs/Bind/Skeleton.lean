import ShapeSql.Compiler
import ShapeSql.Proofs.Value.Record
import ShapeSql.Proofs.Value.Skeleton

/-!
No argument value reaches the command text. Two runs of a plan are compared, on arguments that are
alike and that give orderings the same values. What the runs have in common is carried through the
rules: fragments, the parameters taken back, and the names of those added, but not their values.
-/

namespace ShapeSql

open Sql

/-- Both computations fail, or both succeed with related results. -/
inductive Agree {ε α β : Type} (R : α → β → Prop) : Except ε α → Except ε β → Prop where
  | error (e f : ε) : Agree R (.error e) (.error f)
  | ok {a : α} {b : β} : R a b → Agree R (.ok a) (.ok b)

namespace Agree

variable {α β γ δ : Type} {R : α → β → Prop} {S : γ → δ → Prop}

theorem bind {x : Except ε α} {y : Except ε β} {f : α → Except ε γ} {g : β → Except ε δ}
    (h : Agree R x y) (hnext : ∀ a b, R a b → Agree S (f a) (g b)) : Agree S (x >>= f) (y >>= g) := by
  cases h with
  | error e e' => exact .error e e'
  | ok hab => exact hnext _ _ hab

theorem mapError {x : Except ε α} {y : Except ε β} (f : ε → ε') (h : Agree R x y) :
    Agree R (x.mapError f) (y.mapError f) := by
  cases h with
  | error e e' => exact .error (f e) (f e')
  | ok hab => exact .ok hab

/-- Two folds over one list stay related if every step keeps them so. -/
theorem foldlM {f : α → ι → Except ε α} {g : β → ι → Except ε β} (items : List ι)
    (hstep : ∀ i ∈ items, ∀ a b, R a b → Agree R (f a i) (g b i)) {a : α} {b : β} (h : R a b) :
    Agree R (items.foldlM f a) (items.foldlM g b) := by
  induction items generalizing a b with
  | nil => exact .ok h
  | cons i items ih =>
    rw [List.foldlM_cons, List.foldlM_cons]
    apply Agree.bind (hstep i List.mem_cons_self a b h)
    intro a' b' h'
    exact ih (fun j hj => hstep j (List.mem_cons_of_mem i hj)) h'

theorem refl {R : α → α → Prop} (h : ∀ a, R a a) (x : Except ε α) : Agree R x x := by
  cases x with
  | error e => exact .error e e
  | ok a => exact .ok (h a)

end Agree

/-- The same fragment and the same parameters added and taken back, up to the values of those
added. -/
structure Filling.Alike (f g : Filling) : Prop where
  fragment : f.fragment = g.fragment
  added : f.added.map Prod.fst = g.added.map Prod.fst
  removed : f.removed = g.removed

/-- A numbered list mapped by the numbers alone. -/
theorem map_zipIdx_of_index (g : Nat → β) (as : List α) :
    (as.zipIdx.map fun p => g p.2) = (List.range as.length).map g := by
  rw [List.range_eq_range', ← List.zipIdx_map_snd 0 as, List.map_map]
  rfl

/-- The names of the parameters derived from a base for numbered items. -/
theorem map_fst_itemNames (base : String) (items : List Value) :
    (items.zipIdx.map fun (item, index) => (itemName base index, item)).map Prod.fst =
      (List.range items.length).map (itemName base) := by
  rw [List.map_map]
  exact map_zipIdx_of_index (itemName base) items

theorem forall₂_zipIdx {R : α → β → Prop} {as : List α} {bs : List β} (h : List.Forall₂ R as bs)
    (n : Nat) : List.Forall₂ (fun p q => R p.1 q.1 ∧ p.2 = q.2) (as.zipIdx n) (bs.zipIdx n) := by
  induction h generalizing n with
  | nil => exact .nil
  | cons hab _ ih => exact .cons ⟨hab, rfl⟩ (ih (n + 1))

theorem isEmpty_eq_of_forall₂ {R : α → β → Prop} {as : List α} {bs : List β}
    (h : List.Forall₂ R as bs) : as.isEmpty = bs.isEmpty := by
  cases h with
  | nil | cons _ _ => rfl

theorem isIgnored_eq {a b : Value} (h : a.Alike b) (ignore : Option Ignore) :
    isIgnored ignore a = isIgnored ignore b := by
  cases ignore with
  | none => rfl
  | some i =>
    cases i with
    | ifNull => exact h.isNull_eq
    | ifNullOrEmpty => exact h.isNullOrEmpty_eq

namespace Predicate

variable (p : Predicate)

/-- The condition of a list, from what it may depend on: whether the list is empty or has nulls, and
the parameters of the other members. -/
def membership (isEmpty hasNull : Bool) (names : List String) : Expr :=
  let members := Expr.inList p.column (names.map .param) p.negate
  let nulls := Expr.isNull p.column p.negate
  if isEmpty then if p.negate then .tautology else .contradiction
  else if names.isEmpty then nulls
  else if !hasNull then members
  else if p.negate then members.and nulls else members.or nulls

theorem inList_eq (items : List Value) :
    p.inList items =
      ⟨.expr (p.membership items.isEmpty (items.any Value.isNull)
          ((List.range (items.filter (!·.isNull)).length).map (itemName p.param))),
        (items.filter (!·.isNull)).zipIdx.map fun (item, index) => (itemName p.param index, item),
        []⟩ := by
  rw [← map_fst_itemNames]
  simp only [inList, membership, List.map_map, List.isEmpty_map]
  rfl

theorem inList_alike {as bs : List Value} (h : List.Forall₂ Value.Alike as bs) :
    (p.inList as).Alike (p.inList bs) := by
  have hempty := isEmpty_eq_of_forall₂ h
  have hnull : as.any Value.isNull = bs.any Value.isNull := by
    clear hempty
    induction h with
    | nil => rfl
    | cons hab _ ih => rw [List.any_cons, List.any_cons, hab.isNull_eq, ih]
  have hlength := (Value.Alike.filter_present h).length_eq
  rw [inList_eq, inList_eq, hempty, hnull, hlength]
  refine ⟨rfl, ?_, rfl⟩
  show (List.map _ _).map Prod.fst = (List.map _ _).map Prod.fst
  rw [map_fst_itemNames, map_fst_itemNames, hlength]

theorem fill_alike {a b : Value} (h : a.Alike b) : (p.fill a).Alike (p.fill b) := by
  have hignored : isIgnored p.ignore a = isIgnored p.ignore b := isIgnored_eq h p.ignore
  simp only [fill, hignored]
  split
  · exact ⟨rfl, rfl, rfl⟩
  · split
    · exact p.inList_alike h.items
    · rw [h.isNull_eq]
      exact ⟨rfl, rfl, rfl⟩
    · rw [h.isNull_eq]
      exact ⟨rfl, rfl, rfl⟩
    · exact ⟨rfl, rfl, rfl⟩

end Predicate

namespace RowsSource

/-- Elements of one owner with values that are alike. -/
def ElementsAlike (e f : Element) : Prop := e.owner = f.owner ∧ e.value.Alike f.value

theorem descend_alike {es fs : List Element} (h : List.Forall₂ ElementsAlike es fs) (step : Path) :
    List.Forall₂ ElementsAlike (descend es step) (descend fs step) := by
  apply List.rel_flatMap (forall₂_zipIdx h 0)
  rintro ⟨e, i⟩ ⟨f, j⟩ ⟨⟨_, hvalue⟩, hposition⟩
  apply List.rel_map _ (hvalue.entry step).presentItems
  intro x y hxy
  exact ⟨congrArg some hposition, hxy⟩

theorem elements_alike (source : RowsSource) {as bs : List Value}
    (h : List.Forall₂ Value.Alike as bs) :
    List.Forall₂ ElementsAlike (source.elements as) (source.elements bs) := by
  have hfold : ∀ (levels : List Path) (es fs : List Element), List.Forall₂ ElementsAlike es fs →
      List.Forall₂ ElementsAlike (levels.foldl descend es) (levels.foldl descend fs) := by
    intro levels
    induction levels with
    | nil => exact fun _ _ hall => hall
    | cons step levels ih => exact fun _ _ hall => ih _ _ (descend_alike hall step)
  apply hfold
  exact List.rel_map (fun _ _ hab => ⟨rfl, hab⟩) h

/-- What may show of a cell: its expression and the names of its parameters. -/
def shown (cell : Expr × List (String × Value)) : Expr × List String :=
  (cell.1, cell.2.map Prod.fst)

/-- A cell shows the owner and the position of its element, but of the value only a parameter. -/
theorem row_alike (source : RowsSource) {e f : Element} (h : ElementsAlike e f) (position : Nat) :
    (source.row e position).map shown = (source.row f position).map shown := by
  simp only [row, List.map_map]
  apply List.map_congr_left
  rintro ⟨column, i⟩ _
  cases column with
  | index | null | field _ => rfl
  | parentIndex => simp only [Function.comp_apply, cell, shown, h.1]

/-- The rows of elements, each by its position. -/
def rowsOf (source : RowsSource) (elements : List Element) :
    List (List (Expr × List (String × Value))) :=
  elements.zipIdx.map fun (element, position) => source.row element position

/-- The filling of rows. -/
def fillingOf (rows : List (List (Expr × List (String × Value)))) : Filling :=
  ⟨.rows (rows.map (·.map Prod.fst)), rows.flatMap (·.flatMap Prod.snd), []⟩

theorem fillingOf_alike {rows others : List (List (Expr × List (String × Value)))}
    (h : rows.map (·.map shown) = others.map (·.map shown)) :
    (fillingOf rows).Alike (fillingOf others) := by
  have hexprs : ∀ rows : List (List (Expr × List (String × Value))),
      rows.map (·.map Prod.fst) = (rows.map (·.map shown)).map (·.map Prod.fst) := by
    intro rows
    simp only [List.map_map, Function.comp_def, shown]
  have hnames : ∀ rows : List (List (Expr × List (String × Value))),
      (rows.flatMap (·.flatMap Prod.snd)).map Prod.fst =
        (rows.map (·.map shown)).flatMap (·.flatMap Prod.snd) := by
    intro rows
    simp only [List.map_flatMap, List.flatMap_map, shown]
  refine ⟨?_, ?_, rfl⟩
  · simp only [fillingOf, hexprs rows, hexprs others, h]
  · simp only [fillingOf, hnames rows, hnames others, h]

theorem fill_alike (source : RowsSource) (path : Path) {a b : Value} (h : a.Alike b) :
    Agree Filling.Alike (source.fill path a) (source.fill path b) := by
  have hlength := h.presentItems.length_eq
  have hempty := isEmpty_eq_of_forall₂ h.presentItems
  have hrows : (source.rowsOf (source.elements a.presentItems)).map (·.map shown) =
      (source.rowsOf (source.elements b.presentItems)).map (·.map shown) := by
    rw [rowsOf, rowsOf, List.map_map, List.map_map, ← List.forall₂_eq_eq_eq]
    apply List.rel_map _ (forall₂_zipIdx (source.elements_alike h.presentItems) 0)
    rintro ⟨e, i⟩ ⟨f, j⟩ ⟨helements, hposition⟩
    obtain rfl : i = j := hposition
    exact source.row_alike helements i
  have hdone : Agree (ε := Error) Filling.Alike _ _ := .ok (fillingOf_alike hrows)
  simp only [fill, hempty, hlength]
  split
  · exact .error _ _
  · split
    · split
      · exact .error _ _
      · exact hdone
    · exact hdone

end RowsSource

/-- What may show of a key cell: its equality and the name of its parameter. -/
def KeyCell.shown (cell : KeyCell) : Expr × String := (cell.equality, cell.param)

/-- The branches of a key match, one for each entity. -/
def keyBranches (cells : List (List KeyCell)) : Filling :=
  ⟨.expr (.anyOf (cells.filterMap fun entity =>
      (Expr.allOf? (entity.map KeyCell.equality)).map .group)),
    cells.flatMap fun entity => entity.map KeyCell.binding, []⟩

theorem keyBranches_alike {cells others : List (List KeyCell)}
    (h : cells.map (·.map KeyCell.shown) = others.map (·.map KeyCell.shown)) :
    (keyBranches cells).Alike (keyBranches others) := by
  have hbranches : ∀ cells : List (List KeyCell),
      (cells.filterMap fun entity => (Expr.allOf? (entity.map KeyCell.equality)).map Expr.group) =
        (cells.map (·.map KeyCell.shown)).filterMap fun entity =>
          (Expr.allOf? (entity.map Prod.fst)).map .group := by
    intro cells
    simp only [List.filterMap_map, List.map_map, Function.comp_def, KeyCell.shown]
  have hnames : ∀ cells : List (List KeyCell),
      (cells.flatMap fun entity => entity.map KeyCell.binding).map Prod.fst =
        (cells.map (·.map KeyCell.shown)).flatMap (·.map Prod.snd) := by
    intro cells
    simp only [List.map_flatMap, List.flatMap_map, List.map_map, Function.comp_def, KeyCell.shown,
      KeyCell.binding]
  refine ⟨?_, ?_, rfl⟩
  · simp only [keyBranches, hbranches cells, hbranches others, h]
  · simp only [keyBranches, hnames cells, hnames others, h]

theorem keyCells_shown (columns : List (Expr × Path)) (base : String) (entity other : Value) :
    (keyCells columns base entity).map KeyCell.shown =
      (keyCells columns base other).map KeyCell.shown := by
  simp only [keyCells, List.map_map]
  rfl

theorem keyMatch_alike (columns : List (Expr × Path)) (base : String) {a b : Value}
    (h : a.Alike b) : (keyMatch columns base a).Alike (keyMatch columns base b) := by
  have hlength := h.presentItems.length_eq
  have hempty := isEmpty_eq_of_forall₂ h.presentItems
  have hcells : (a.presentItems.zipIdx.map fun (entity, index) =>
        keyCells columns (itemName base index) entity).map (·.map KeyCell.shown) =
      (b.presentItems.zipIdx.map fun (entity, index) =>
        keyCells columns (itemName base index) entity).map (·.map KeyCell.shown) := by
    rw [List.map_map, List.map_map, ← List.forall₂_eq_eq_eq]
    apply List.rel_map _ (forall₂_zipIdx h.presentItems 0)
    rintro ⟨e, i⟩ ⟨f, j⟩ ⟨_, hposition⟩
    obtain rfl : i = j := hposition
    exact keyCells_shown columns (itemName base i) e f
  simp only [keyMatch, hempty]
  split
  · exact ⟨rfl, rfl, rfl⟩
  · split
    · refine ⟨?_, ?_, rfl⟩
      · have hitems := map_zipIdx_of_index (α := Value) fun i => Expr.param (itemName base i)
        simp only [List.map_map, Function.comp_def, hitems, hlength]
      · have hnames := map_zipIdx_of_index (α := Value) (itemName base)
        simp only [List.map_map, Function.comp_def, hnames, hlength]
    · exact keyBranches_alike hcells

namespace Action

/-- Orderings read the direction, and where they are dynamic the columns, from the value. -/
def isOrdering : Action → Bool
  | .order _ | .dynamicOrder _ _ => true
  | _ => false

end Action

theorem HoleRule.fill_alike (s : Schema) (rule : HoleRule) {a b : Value} (h : a.Alike b)
    (horder : rule.action.isOrdering = true → a = b) :
    Agree Filling.Alike (rule.fill s a) (rule.fill s b) := by
  cases haction : rule.action with
  | predicate p =>
    simp only [fill, haction]
    exact .ok (p.fill_alike h)
  | guard ignore expr =>
    have hcovers : ignore.covers a = ignore.covers b := isIgnored_eq h (some ignore)
    simp only [fill, haction, hcovers]
    exact .ok ⟨rfl, rfl, rfl⟩
  | order _ | dynamicOrder _ _ =>
    -- The value itself shows here, which is why the two must be equal.
    rw [horder (by rw [haction]; rfl)]
    exact .refl (fun _ => ⟨rfl, rfl, rfl⟩) _
  | assign column param ignore =>
    simp only [fill, haction, isIgnored_eq h ignore]
    split
    · exact .ok ⟨rfl, rfl, rfl⟩
    · exact .ok ⟨rfl, rfl, rfl⟩
  | rows source =>
    simp only [fill, haction]
    exact source.fill_alike rule.path h
  | keyMatch columns base =>
    simp only [fill, haction]
    exact .ok (keyMatch_alike columns base h)

namespace Binding

/-- The same substitution, the same parameters taken back, and the same names of those added. -/
structure Alike (b c : Binding) : Prop where
  subs : b.subs = c.subs
  added : b.added.names = c.added.names
  removed : b.removed = c.removed
  assigned : b.assigned = c.assigned

variable {args other : Value}

theorem step_alike (s : Schema) (h : args.Alike other) (rule : HoleRule)
    (horder : rule.action.isOrdering = true → args.entry rule.path = other.entry rule.path)
    {b c : Binding} (hbc : b.Alike c) :
    Agree Alike (b.step s args rule) (c.step s other rule) := by
  unfold step refuse faulty
  apply Agree.bind ((rule.fill_alike s (h.entry rule.path) horder).mapError _)
  intro f g hfg
  rw [hbc.subs, hfg.fragment]
  apply Agree.bind (Agree.refl (fun _ => rfl) _)
  rintro subs _ rfl
  refine .ok ⟨rfl, ?_, ?_, ?_⟩
  · rw [Record.names_insertAll, Record.names_insertAll, hfg.added, hbc.added]
  · rw [hfg.removed, hbc.removed]
  · rw [hbc.assigned]

theorem ofRules_alike (s : Schema) (rules : List HoleRule) (h : args.Alike other)
    (horder : ∀ rule ∈ rules, rule.action.isOrdering = true →
      args.entry rule.path = other.entry rule.path) :
    Agree Alike (ofRules s rules args) (ofRules s rules other) := by
  apply Agree.foldlM rules
  · intro rule hrule b c hbc
    exact step_alike s h rule (horder rule hrule) hbc
  · exact ⟨rfl, rfl, rfl, rfl⟩

theorem apply_alike (t : Transform) (path : Path) {a b : Value} (h : a.Alike b) :
    Agree (fun _ _ => True) (t.apply path a) (t.apply path b) := by
  cases t with
  | asIs => exact .ok trivial
  | required =>
    simp only [Transform.apply, h.isNull_eq]
    split
    · exact .error _ _
    · exact .ok trivial
  | like mode =>
    have hok : ∀ v : Value, ∃ w, (Transform.like mode).apply path v = .ok w := by
      intro v
      cases v <;> exact ⟨_, rfl⟩
    obtain ⟨v, hv⟩ := hok a
    obtain ⟨w, hw⟩ := hok b
    rw [hv, hw]
    exact .ok trivial

theorem declared_alike (params : List Param) (h : args.Alike other) {b c : Binding}
    (hbc : b.Alike c) :
    Agree (fun r t : Params => r.names = t.names) (b.declared params args)
      (c.declared params other) := by
  unfold declared
  rw [hbc.removed]
  apply Agree.foldlM
  · intro p _ r t hnames
    apply Agree.bind (apply_alike p.transform p.path (h.entry p.path))
    intro v w _
    apply Agree.ok
    rw [Record.names_insert, Record.names_insert, hnames]
  · rfl

theorem append_alike {xs ys : List (String × Value)} (hxs : xs.map Prod.fst = ys.map Prod.fst)
    {r t : Params} (h : r.names = t.names) :
    Agree (fun r t : Params => r.names = t.names) (append r xs) (append t ys) := by
  induction xs generalizing ys r t with
  | nil =>
    cases ys with
    | nil => exact .ok h
    | cons _ _ => simp at hxs
  | cons x xs ih =>
    cases ys with
    | nil => simp at hxs
    | cons y ys =>
      obtain ⟨n, v⟩ := x
      obtain ⟨m, w⟩ := y
      simp only [List.map_cons, List.cons.injEq] at hxs
      obtain ⟨rfl, hrest⟩ := hxs
      -- Whether the name is taken depends on the names there alone.
      have htaken : (r.getExact? n).isSome = (t.getExact? n).isSome := by
        rw [Bool.eq_iff_iff, Record.getExact?_isSome_iff, Record.getExact?_isSome_iff, h]
      simp only [append, htaken]
      split
      · exact .error _ _
      · apply ih hrest
        simp only [Record.names, List.map_append, List.map_cons, List.map_nil] at h ⊢
        rw [h]

end Binding

namespace Plan

variable {args other : Value}

theorem substitution_alike (plan : Plan) (s : Schema) (h : args.Alike other)
    (horder : ∀ rule ∈ plan.rules, rule.action.isOrdering = true →
      args.entry rule.path = other.entry rule.path) :
    Agree (fun x y : Substitution × Params => x.1 = y.1 ∧ x.2.names = y.2.names)
      (plan.substitution s args) (plan.substitution s other) := by
  unfold substitution refuse faulty
  apply Agree.bind (Binding.ofRules_alike s plan.rules h horder)
  intro b c hbc
  rw [hbc.assigned]
  split
  · exact .error _ _
  · apply Agree.bind ((Binding.declared_alike plan.params h hbc).mapError _)
    intro r t hnames
    apply Agree.bind ((Binding.append_alike hbc.added hnames).mapError _)
    intro r' t' hnames'
    exact .ok ⟨hbc.subs, hnames'⟩

end Plan

/-- The command text and the names of the parameters, in order, do not depend on the values of full
scalars: nulls, empty texts, the members of records and the lengths of lists are all they show, and
the values of orderings. -/
theorem Compiled.bind_alike (c : Compiled) {args other : Value} (h : args.Alike other)
    (horder : ∀ rule ∈ c.plan.rules, rule.action.isOrdering = true →
      args.entry rule.path = other.entry rule.path) :
    Agree (fun a b : Bound => a.sql = b.sql ∧ a.params.names = b.params.names) (c.bind args)
      (c.bind other) := by
  unfold bind Plan.bind faulty
  rw [h.isNull_eq, h.isRecord_eq]
  split
  · exact .error _ _
  · apply Agree.bind (c.plan.substitution_alike c.schema h horder)
    rintro ⟨subs, params⟩ ⟨subs', params'⟩ ⟨hsubs, hnames⟩
    obtain rfl : subs = subs' := hsubs
    apply Agree.bind (Agree.refl (fun _ => rfl) _)
    rintro sql _ rfl
    exact .ok ⟨rfl, hnames⟩

/-- A search by name and by any number of years, in a direction that the argument gives. -/
def nameSearch : Compiled where
  schema := ⟨[]⟩
  plan := {
    batch := [.query { Query.reading (.of (.table "Person" none)) with
      projection := [⟨.column none "Id", none⟩]
      filter := some (.all [.hole ⟨0⟩, .hole ⟨1⟩])
      orderBy := [.hole ⟨2⟩] }]
    rules := [
      ⟨⟨0⟩, ⟨["Term"]⟩, .predicate ⟨.column none "Name", .eq, false, some .ifNullOrEmpty, "Term"⟩⟩,
      ⟨⟨1⟩, ⟨["Years"]⟩, .predicate ⟨.column none "Year", .inList, false, none, "Years"⟩⟩,
      ⟨⟨2⟩, ⟨["Way"]⟩, .order (.column none "Name")⟩]
    params := [⟨"Term", ⟨["Term"]⟩, .asIs⟩]
    relations := none }
  materializer := none
  output := .many

/-- Arguments of the search. -/
def searchFor (term : String) (years : List Int32) : Value :=
  .record [("Term", .text term), ("Years", .list (years.map .i32)), ("Way", .text "desc")]

/-- A term that closes a quotation is bound like any other. -/
theorem bind_alike_nameSearch :
    (searchFor "Ann" [1990, 2000]).Alike (searchFor "x' OR 1 = 1; --" [7, 8]) ∧
    (∀ rule ∈ nameSearch.plan.rules, rule.action.isOrdering = true →
      (searchFor "Ann" [1990, 2000]).entry rule.path =
        (searchFor "x' OR 1 = 1; --" [7, 8]).entry rule.path) ∧
    Agree (fun a b : Bound => a.sql = b.sql ∧ a.params.names = b.params.names)
      (nameSearch.bind (searchFor "Ann" [1990, 2000]))
      (nameSearch.bind (searchFor "x' OR 1 = 1; --" [7, 8])) := by
  have halike : (searchFor "Ann" [1990, 2000]).Alike (searchFor "x' OR 1 = 1; --" [7, 8]) :=
    Value.alike_of_skeleton_eq _ _ rfl
  have horder : ∀ rule ∈ nameSearch.plan.rules, rule.action.isOrdering = true →
      (searchFor "Ann" [1990, 2000]).entry rule.path =
        (searchFor "x' OR 1 = 1; --" [7, 8]).entry rule.path := by
    intro rule hrule hordering
    simp only [nameSearch, List.mem_cons, List.not_mem_nil, or_false] at hrule
    rcases hrule with rfl | rfl | rfl
    · cases hordering
    · cases hordering
    · rfl
  exact ⟨halike, horder, nameSearch.bind_alike halike horder⟩

end ShapeSql
