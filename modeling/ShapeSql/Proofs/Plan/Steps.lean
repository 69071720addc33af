import Mathlib.Logic.Relation
import ShapeSql.Plan.Basic
import ShapeSql.Proofs.Plan.Change
import ShapeSql.Proofs.Plan.Select

namespace ShapeSql

open Sql

namespace Action

/-- The base that an action derives its parameters from. -/
def base? : Action → Option String
  | .predicate p => if p.kind = .inList then some p.param else none
  | .rows source =>
    match source.names with
    | .fields _ => none
    | .derived base => some base
  | .keyMatch _ base => some base
  | _ => none

/-- The names that the cells of a single row have for themselves. -/
def cellNames : Action → List String
  | .rows source =>
    match source.names with
    | .fields names => names
    | .derived _ => []
  | _ => []

/-- An action without parameters of its own, which compares nothing. -/
def isPlain : Action → Bool
  | .guard _ _ | .order _ | .dynamicOrder _ _ | .assign _ _ _ => true
  | .predicate _ | .rows _ | .keyMatch _ _ => false

end Action

/-- The form of the parameter that a comparison reads: patterns are for LIKE alone. -/
def PredicateKind.Reads (transform : Transform) : PredicateKind → Prop
  | .like => ∃ mode, transform = .like mode
  | .eq | .compare _ | .inList => transform = .asIs

open Planning

/-- What planning does to a draft at a time. -/
inductive Draft.Step (d : Draft) : Draft → Prop
  | param {path : Path} {transform : Transform} {name : String} {d' : Draft} :
      (param path transform).run d = .ok (name, d') → Step d d'
  | single {wanted name : String} {d' : Draft} : (singleName wanted).run d = .ok (name, d') → Step d d'
  | aliased {stem name : String} {d' : Draft} : (freshAlias stem).run d = .ok (name, d') → Step d d'
  | plain {path : Path} {action : Action} {hole : HoleId} {d' : Draft} : action.isPlain = true →
      (rule path action).run d = .ok (hole, d') → Step d d'
  /-- A base, and the rule that derives parameters from it. -/
  | based {wanted base : String} {path : Path} {action : Action} {hole : HoleId} {between d' : Draft} :
      (baseName wanted).run d = .ok (base, between) → action.base? = some base →
        (rule path action).run between = .ok (hole, d') → Step d d'
  /-- A parameter, and the rule that compares with it. -/
  | compared {path : Path} {transform : Transform} {p : Predicate} {hole : HoleId} {between d' : Draft} :
      (param path transform).run d = .ok (p.param, between) → p.kind ≠ .inList →
        p.kind.Reads transform →
          (rule path (.predicate p)).run between = .ok (hole, d') → Step d d'
  /-- The rule of a row whose cells have names of their own. -/
  | row {names : List String} {source : RowsSource} {path : Path} {hole : HoleId} {d' : Draft} :
      source.names = .fields names → (∀ name ∈ names, lowerAscii name ∈ d.names.taken) →
        (rule path (.rows source)).run d = .ok (hole, d') → Step d d'

/-- A draft that planning comes to from another one. -/
abbrev Draft.Steps : Draft → Draft → Prop := Relation.ReflTransGen Draft.Step

namespace Planning

variable {α β : Type}

/-- Whatever draft it starts with, a computation only takes steps. -/
def Walks (m : Planning α) : Prop := ∀ d a d', m.run d = .ok (a, d') → d.Steps d'

theorem Walks.pure (a : α) : (pure a : Planning α).Walks := by
  intro d b d' hrun
  obtain ⟨-, rfl⟩ := run_pure_ok.mp hrun
  exact .refl

theorem Walks.throw (e : Error) : (throw e : Planning α).Walks :=
  fun _ _ _ hrun => (run_throw_ok.mp hrun).elim

theorem Walks.lift (x : Except Error α) : (liftM x : Planning α).Walks := by
  intro d b d' hrun
  obtain ⟨-, rfl⟩ := run_lift_ok.mp hrun
  exact .refl

theorem Walks.bind {m : Planning α} {f : α → Planning β} (hm : m.Walks) (hf : ∀ a, (f a).Walks) :
    (m >>= f).Walks := by
  intro d b d' hrun
  obtain ⟨a, between, hfirst, hrest⟩ := run_bind_ok.mp hrun
  exact (hm d a between hfirst).trans (hf a between b d' hrest)

theorem Walks.mapM {f : α → Planning β} {items : List α} (hf : ∀ a ∈ items, (f a).Walks) :
    (items.mapM f).Walks := by
  induction items with
  | nil =>
    rw [List.mapM_nil]
    exact .pure _
  | cons a items ih =>
    rw [List.forall_mem_cons] at hf
    rw [List.mapM_cons]
    exact hf.1.bind fun _ => (ih hf.2).bind fun _ => .pure _

theorem Walks.foldlM {f : β → α → Planning β} {items : List α} (hf : ∀ b a, (f b a).Walks) (start : β) :
    (items.foldlM f start).Walks := by
  induction items generalizing start with
  | nil =>
    rw [List.foldlM_nil]
    exact .pure _
  | cons a items ih =>
    rw [List.foldlM_cons]
    exact (hf start a).bind ih

theorem param_walks (path : Path) (transform : Transform) : (param path transform).Walks :=
  fun _ _ _ hrun => .single (.param hrun)

theorem singleName_walks (wanted : String) : (singleName wanted).Walks :=
  fun _ _ _ hrun => .single (.single hrun)

theorem freshAlias_walks (stem : String) : (freshAlias stem).Walks :=
  fun _ _ _ hrun => .single (.aliased hrun)

theorem rule_walks (path : Path) {action : Action} (h : action.isPlain = true) :
    (rule path action).Walks :=
  fun _ _ _ hrun => .single (.plain h hrun)

end Planning

namespace Planner

variable (p : Planner)

section Filters

theorem reads_asIs {field : Field} (h : field.directives.like = none) :
    field.predicateKind.Reads .asIs := by
  rw [Field.predicateKind, h, Option.isSome_none, if_neg Bool.false_ne_true]
  cases field.directives.compare with
  | some _ => rfl
  | none => cases hlist : field.isList <;> simp [PredicateKind.Reads]

theorem predicate_walks (column : Expr) (field : Field) (ignore : Option Ignore) :
    (predicate column field ignore).Walks := by
  intro d e d' hrun
  simp only [predicate, run_bind_ok, run_pure_ok] at hrun
  obtain ⟨name, between, hname, hole, after, hhole, rfl, rfl⟩ := hrun
  unfold predicateParam at hname
  split at hname
  · rename_i hkind
    exact .single (.based hname (by rw [Action.base?, if_pos hkind]) hhole)
  · rename_i mode hmode hkind
    have hlike : field.predicateKind = .like := by rw [Field.predicateKind, hmode]; rfl
    have hreads : field.predicateKind.Reads (.like mode) := hlike ▸ ⟨mode, rfl⟩
    exact .single (.compared hname hkind hreads hhole)
  · rename_i hmode hkind
    exact .single (.compared hname hkind (reads_asIs hmode) hhole)

theorem guarded_walks (path : Path) (ignore : Option Ignore) (expr : Expr) :
    (guarded path ignore expr).Walks := by
  unfold guarded
  split
  · exact .pure _
  · exact .bind (rule_walks _ rfl) fun _ => .pure _

theorem chain_walks (outer : String) (legs : List Leg) : (p.chain outer legs).Walks := by
  unfold chain
  split
  · exact .pure _
  · refine .bind (freshAlias_walks _) fun _ => .bind (.foldlM (fun _ _ => ?_) _) fun _ => .pure _
    exact .bind (freshAlias_walks _) fun _ => .pure _

theorem viaExists_walks (scope : Scope) (v : Via) (field : Field) : (p.viaExists scope v field).Walks := by
  unfold viaExists
  refine .bind (.lift _) fun legs => .bind (p.chain_walks _ _) fun found => ?_
  split
  · exact .pure _
  · exact .bind (.lift _) fun _ => .bind (predicate_walks _ _ _) fun _ => .pure _

theorem linked_walks (outer : String) (target : Table) (link : Link) :
    (p.linked outer target link).Walks := by
  unfold linked
  refine .bind (freshAlias_walks _) fun _ => ?_
  split
  · exact .pure _
  · exact .pure _
  · exact .bind (freshAlias_walks _) fun _ => .pure _

mutual

theorem fieldFilter_walks : ∀ (t : FieldTree) (scope : Scope) (ignore : Option Ignore),
    (p.fieldFilter scope ignore t).Walks
  | .node field kids, scope, ignore => by
    rw [fieldFilter]
    split
    · split
      · exact .bind (.throw _) fun _ => .bind (p.viaExists_walks _ _ _) fun _ => guarded_walks _ _ _
      · exact .bind (p.viaExists_walks _ _ _) fun _ => guarded_walks _ _ _
    · split
      · exact .bind (.lift _) fun _ => predicate_walks _ _ _
      · split
        · exact .pure _
        · split
          · exact .throw _
          · refine .bind (.lift _) fun other => ?_
            split
            · exact .bind (nestedFilters_walks kids _) fun _ => guarded_walks _ _ _
            · exact .bind (.lift _) fun _ => .bind (p.linked_walks _ _ _) fun _ =>
                .bind (nestedFilters_walks kids _) fun _ => guarded_walks _ _ _

theorem nestedFilters_walks : ∀ (ts : List FieldTree) (scope : Scope), (p.nestedFilters scope ts).Walks
  | [], scope => by
    rw [nestedFilters]
    exact .pure _
  | t :: ts, scope => by
    rw [nestedFilters]
    split
    · exact .bind (fieldFilter_walks t _ _) fun _ => .bind (nestedFilters_walks ts scope) fun _ => .pure _
    · exact nestedFilters_walks ts scope

end

theorem plainFilter_walks (argument : FieldTree) : (p.plainFilter argument).Walks :=
  p.fieldFilter_walks argument _ _

theorem rootFilter_walks (argument : FieldTree) : (p.rootFilter argument).Walks := by
  unfold rootFilter
  split
  · exact .throw _
  · exact p.plainFilter_walks argument

theorem selectFilter_walks (relations : Relations) (argument : FieldTree) :
    (p.selectFilter relations argument).Walks := by
  unfold selectFilter
  split
  · exact .bind (p.plainFilter_walks argument) fun _ => .pure _
  · exact .bind (.lift _) fun _ => .bind (p.fieldFilter_walks argument _ _) fun _ => .pure _

theorem selectFilters_walks (relations : Relations) (arguments : List FieldTree) :
    (p.selectFilters relations arguments).Walks := by
  induction arguments generalizing relations with
  | nil => exact .pure _
  | cons argument rest ih =>
    exact .bind (p.selectFilter_walks relations argument) fun _ => .bind (ih _) fun _ => .pure _

end Filters

section Selects

theorem orderAction_isPlain {relations : Relations} {field : Field} {action : Action}
    (h : p.orderAction relations field = .ok (some action)) : action.isPlain = true := by
  cases asksOrder h with
  | column | direction | dynamic => rfl

theorem orderItems_walks (relations : Relations) (fields : List Field) :
    (p.orderItems relations fields).Walks := by
  induction fields with
  | nil => exact .pure _
  | cons field rest ih =>
    intro d items d' hrun
    rcases orderItems_cons hrun with ⟨_, hrest⟩ | ⟨_, hole, between, others, hfound, hhole, hothers, rfl⟩
    · exact ih d items d' hrest
    · exact (rule_walks _ (p.orderAction_isPlain hfound) d hole between hhole).trans
        (ih between others d' hothers)

theorem pageBound_walks (argument : Option Field) : (pageBound argument).Walks := by
  unfold pageBound
  split
  · exact .pure _
  · exact .bind (param_walks _ _) fun _ => .pure _

theorem page_walks (query : Query) (aliasName : String) : (p.page query aliasName).Walks :=
  .bind (pageBound_walks _) fun _ => .bind (pageBound_walks _) fun _ => .pure _

theorem keyWindow_walks (relations : Relations) (filters : List Filter) (order : List OrderItem) :
    (p.keyWindow relations filters order).Walks := by
  unfold keyWindow
  split
  · exact .bind (.throw _) fun _ => .bind (p.page_walks _ _) fun _ => .pure _
  · exact .bind (p.page_walks _ _) fun _ => .pure _

theorem plainQuery_walks (relations : Relations) (filters : List Filter) (order : List OrderItem) :
    (p.plainQuery relations filters order).Walks := by
  unfold plainQuery
  dsimp only
  split
  · exact p.page_walks _ _
  · exact .pure _

theorem select_walks : p.select.Walks := by
  intro d result d' hrun
  obtain ⟨query, relations⟩ := result
  obtain ⟨start, filters, joined, order, between, after, _, hfilters, _, horder, hquery⟩ :=
    p.select_inv hrun
  have hsteps : d.Steps after :=
    (p.selectFilters_walks _ _ d _ between hfilters).trans (p.orderItems_walks _ _ between _ after horder)
  rcases hquery with ⟨_, _, _, rfl⟩ | ⟨_, _, _, hwindow⟩ | ⟨_, _, hplain⟩
  · exact hsteps
  · exact hsteps.trans (p.keyWindow_walks _ _ _ after _ d' hwindow)
  · exact hsteps.trans (p.plainQuery_walks _ _ _ after _ d' hplain)

end Selects

section Changes

theorem setAssignment_walks (field : Field) : (p.setAssignment field).Walks := by
  unfold setAssignment
  split
  · exact .bind (.throw _) fun _ => .bind (.lift _) fun _ => .bind (param_walks _ _) fun _ =>
      .bind (rule_walks _ rfl) fun _ => .pure _
  · exact .bind (.lift _) fun _ => .bind (param_walks _ _) fun _ =>
      .bind (rule_walks _ rfl) fun _ => .pure _

theorem updateBySet_walks : p.updateBySet.Walks :=
  .bind (.mapM fun field _ => p.setAssignment_walks field) fun _ =>
    .bind (.mapM fun argument _ => p.rootFilter_walks argument) fun _ => .pure _

theorem entityColumns_walks (entity : Path) (columns : List WrittenColumn) :
    (p.entityColumns entity columns).Walks := by
  induction columns with
  | nil =>
    rw [entityColumns]
    exact .pure _
  | cons written rest ih =>
    obtain ⟨column, source⟩ := written
    cases source with
    | none =>
      rw [entityColumns]
      exact ih
    | some source =>
      rw [entityColumns]
      refine .bind (param_walks _ _) fun _ => .bind ih fun _ => ?_
      dsimp only
      split
      · exact .pure _
      · split
        · exact .pure _
        · exact .pure _

theorem fillLookup_walks (t : WrittenTable) (entity : Path) : (fillLookup t entity).Walks := by
  intro d st d' hrun
  obtain ⟨base, between, hbase, hole, hhole, rfl⟩ := fillLookup_inv hrun
  exact .single (.based hbase rfl hhole)

theorem updateByEntity_walks : p.updateByEntity.Walks := by
  intro d batch d' hrun
  obtain ⟨entity, tree, _, _, _, ⟨fill, update, _, hfill, _⟩ | ⟨assignments, filters, _, hcolumns, _⟩⟩ :=
    p.updateByEntity_cases hrun
  · exact fillLookup_walks _ _ d fill d' hfill
  · exact p.entityColumns_walks _ _ d _ d' hcolumns

theorem update_walks : p.update.Walks := by
  unfold update
  split
  · exact p.updateByEntity_walks
  · exact p.updateBySet_walks

theorem keyMatch_walks (entity : FieldTree) : (p.keyMatch entity).Walks := by
  intro d e d' hrun
  simp only [keyMatch, run_bind_ok, run_lift_ok, run_pure_ok] at hrun
  obtain ⟨columns, _, ⟨_, rfl⟩, base, between, hbase, hole, after, hhole, rfl, rfl⟩ := hrun
  exact .single (.based hbase rfl hhole)

theorem delete_walks : p.delete.Walks := by
  unfold delete
  refine .bind (.lift _) fun found => ?_
  cases found with
  | some entity => exact .bind (p.keyMatch_walks entity) fun _ => .bind (.pure _) fun _ => .pure _
  | none =>
    exact .bind (.mapM fun argument _ => p.rootFilter_walks argument) fun _ =>
      .bind (.pure _) fun _ => .pure _

end Changes

section Writes

/-- Names that are taken one after the other are all taken in the end. -/
theorem singleNames_taken {α : Type} {wanted : α → String} {items : List α} {names : List String}
    {d d' : Draft} (hrun : (items.mapM fun a => singleName (wanted a)).run d = .ok (names, d')) :
    (∀ t ∈ d.names.taken, t ∈ d'.names.taken) ∧ ∀ name ∈ names, lowerAscii name ∈ d'.names.taken := by
  induction items generalizing d names with
  | nil =>
    rw [List.mapM_nil, run_pure_ok] at hrun
    obtain ⟨rfl, rfl⟩ := hrun
    exact ⟨fun _ ht => ht, nofun⟩
  | cons first rest ih =>
    rw [List.mapM_cons] at hrun
    simp only [run_bind_ok, run_pure_ok] at hrun
    obtain ⟨name, between, hname, others, after, hothers, rfl, rfl⟩ := hrun
    obtain ⟨hkept, htaken⟩ := ih hothers
    cases hname
    exact ⟨fun t ht => hkept t (List.mem_cons_of_mem _ ht),
      List.forall_mem_cons.mpr ⟨hkept _ List.mem_cons_self, htaken⟩⟩

theorem plainInsert_walks (t : WrittenTable) (entity : Path) (single : Bool) :
    (plainInsert t entity single).Walks := by
  intro d batch d' hrun
  obtain ⟨names, between, hnames, hole, hhole, rfl⟩ := plainInsert_inv hrun
  rcases rowNames_cases hnames with ⟨listed, hlisted, rfl⟩ | ⟨base, hbase, rfl⟩
  · have hsingle : d.Steps between :=
      Walks.mapM (fun _ _ => singleName_walks _) d listed between hlisted
    exact hsingle.tail (.row rfl (singleNames_taken hlisted).2 hhole)
  · exact .single (.based hbase rfl hhole)

theorem write_walks : p.write.Walks := by
  intro d result d' hrun
  obtain ⟨batch, relations⟩ := result
  obtain ⟨entity, tree, _, _, hplain | ⟨filled, hfilled, _⟩⟩ := p.write_cases hrun
  · exact plainInsert_walks _ _ _ d batch d' hplain
  · exact Walks.mapM (fun t _ => fillLookup_walks t _) d filled d' hfilled

end Writes

end Planner

theorem Plan.statements_walks (p : Planner) : (Plan.statements p).Walks := by
  unfold Plan.statements
  split
  · exact .bind p.select_walks fun _ => .pure _
  · exact p.write_walks
  · exact p.write_walks
  · exact p.write_walks
  · exact .bind p.update_walks fun _ => .pure _
  · exact .bind p.delete_walks fun _ => .pure _

end ShapeSql
