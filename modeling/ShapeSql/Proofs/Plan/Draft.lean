import ShapeSql.Plan.Draft
import ShapeSql.Proofs.Except
import ShapeSql.Proofs.Plan.Names
import ShapeSql.Proofs.Sql.Leaf

namespace ShapeSql

open Sql

/-- Enough names for the columns, where each has one of its own. -/
def RowsSource.Fits (source : RowsSource) : Prop :=
  match source.names with
  | .fields names => source.columns.length ≤ names.length
  | .derived _ => True

namespace Action

/-- The place of the hole that an action fills. -/
def place : Action → Place
  | .predicate _ | .guard _ _ | .keyMatch _ _ => .expr
  | .order _ | .dynamicOrder _ _ => .order
  | .assign _ _ _ => .assignments
  | .rows _ => .rows

/-- The leaves that the fragment may have before any value is known. -/
def leaves : Action → List Leaf
  | .predicate p => p.column.collect .leaves ()
  | .guard _ expr | .order expr => expr.collect .leaves ()
  | .keyMatch columns _ => columns.flatMap fun c => c.1.collect .leaves ()
  | .dynamicOrder _ _ | .assign _ _ _ | .rows _ => []

/-- The declared parameter that the fragment compares with or assigns. -/
def param? : Action → Option String
  | .predicate p => if p.kind = .inList then none else some p.param
  | .assign _ param _ => some param
  | _ => none

/-- The names an action keeps for parameters of its own, and the base they derive from. -/
def Owns (name : String) : Action → Prop
  | .predicate p => p.kind = .inList ∧ (name = p.param ∨ ∃ i, name = itemName p.param i)
  | .rows source =>
    match source.names with
    | .fields names => name ∈ names
    | .derived base => ∃ row column, name = RowsSource.cellName (.derived base) row column
  | .keyMatch _ base =>
    ∃ i, name = itemName base i ∨ ∃ j, name = itemName (itemName base i) j
  | _ => False

/-- Whether rules of this action are kept track of: those with a declared parameter, and orderings. -/
def isMarked (action : Action) : Bool := action.param?.isSome || action.place == .order

/-- The place and the path of a rule that is kept track of, none for any other. -/
def mark (path : Path) (action : Action) : List (Place × Path) :=
  if action.isMarked then [(action.place, path)] else []

theorem isMarked_of_place {action : Action}
    (h : action.place = .assignments ∨ action.place = .order) : action.isMarked = true := by
  cases action with
  | assign _ _ _ | order _ | dynamicOrder _ _ => rfl
  | predicate _ | guard _ _ | rows _ | keyMatch _ _ => rcases h with h | h <;> cases h

/-- An action whose rows have names enough. -/
def Fits : Action → Prop
  | .rows source => source.Fits
  | _ => True

end Action

/-- A hole that one of the rules fills, for its place. -/
def Sql.Leaf.FilledBy (rules : List HoleRule) : Leaf → Prop
  | .hole place id => ∃ rule ∈ rules, rule.hole = id ∧ rule.action.place = place
  | .param _ | .broken _ => False

theorem Sql.Leaf.FilledBy.append {rules more : List HoleRule} {l : Leaf} (h : l.FilledBy rules) :
    l.FilledBy (rules ++ more) := by
  cases l with
  | hole place id =>
    obtain ⟨rule, hrule, hfills⟩ := h
    exact ⟨rule, List.mem_append_left _ hrule, hfills⟩
  | param _ => exact h.elim
  | broken _ => exact h.elim

/-- Rules numbered in order, each with holes of earlier rules only. -/
inductive Layered : List HoleRule → Prop where
  | nil : Layered []
  | snoc {rules : List HoleRule} {rule : HoleRule} : Layered rules →
    rule.hole = ⟨rules.length⟩ → (∀ l ∈ rule.action.leaves, l.FilledBy rules) →
      Layered (rules ++ [rule])

/-- The places and paths of the rules that are kept track of. -/
def marks (rules : List HoleRule) : List (Place × Path) :=
  rules.flatMap fun rule => rule.action.mark rule.path

theorem mem_marks {rules : List HoleRule} {rule : HoleRule} (hrule : rule ∈ rules)
    (h : rule.action.isMarked = true) : (rule.action.place, rule.path) ∈ marks rules := by
  apply List.mem_flatMap.mpr
  refine ⟨rule, hrule, ?_⟩
  rw [Action.mark, if_pos h]
  exact List.mem_singleton.mpr rfl

namespace Draft

/-- Neither declared nor to be declared: a name of no parameter that is not free either. -/
def SetAside (d : Draft) (name : String) : Prop :=
  d.names.isFree name = false ∧ ∀ p ∈ d.params, p.name ≠ name

/-- The draft with one more parameter, under a new name. -/
def declare (d : Draft) (path : Path) (transform : Transform) : Draft :=
  { d with
    names := (d.names.single path.paramName).2
    params := d.params ++ [⟨(d.names.single path.paramName).1, path, transform⟩] }

structure Sound (d : Draft) : Prop where
  layered : Layered d.rules
  counted : d.nextHole = d.rules.length
  taken : ∀ p ∈ d.params, lowerAscii p.name ∈ d.names.taken
  distinct : (d.params.map Param.name).Nodup
  aside : ∀ rule ∈ d.rules, ∀ name, rule.action.Owns name → d.SetAside name
  declared : ∀ rule ∈ d.rules, ∀ name, rule.action.param? = some name →
    ∃ p ∈ d.params, p.name = name ∧ p.path = rule.path ∧ p.transform ≠ .required
  fits : ∀ rule ∈ d.rules, rule.action.Fits

/-- A name that is still free is not the name of a parameter. -/
theorem Sound.ne_of_isFree {d : Draft} (hd : d.Sound) {name : String}
    (hfree : d.names.isFree name = true) : ∀ p ∈ d.params, p.name ≠ name := by
  intro p hp hname
  have htaken := hd.taken p hp
  rw [hname] at htaken
  exact ((Names.isFree_iff _ _).mp hfree).1 htaken

theorem sound_default : (default : Draft).Sound where
  layered := .nil
  counted := rfl
  taken := nofun
  distinct := List.nodup_nil
  aside := nofun
  declared := nofun
  fits := nofun

/-- `d'` is a sound draft that has all that `d` has. The marked rules among those added are of these
places and paths, in this order, or of some of them. -/
structure Extends (d : Draft) (marked : List (Place × Path)) (d' : Draft) : Prop where
  sound : d'.Sound
  rules : ∃ more, d'.rules = d.rules ++ more ∧ (marks more).Sublist marked
  params : ∀ p ∈ d.params, p ∈ d'.params
  aside : ∀ name, d.SetAside name → d'.SetAside name

namespace Extends

variable {d d' d'' : Draft} {marked others : List (Place × Path)}

/-- A sound draft with the same rules extends one if it forgets no parameter and no name. -/
theorem of_rules_eq (h : d'.Sound) (hrules : d'.rules = d.rules)
    (hparams : ∀ p ∈ d.params, p ∈ d'.params) (haside : ∀ name, d.SetAside name → d'.SetAside name) :
    d.Extends [] d' where
  sound := h
  rules := by
    refine ⟨[], ?_, List.Sublist.slnil⟩
    rw [hrules, List.append_nil]
  params := hparams
  aside := haside

theorem refl (h : d.Sound) : d.Extends [] d :=
  of_rules_eq h rfl (fun _ hp => hp) (fun _ ha => ha)

theorem trans (h : d.Extends marked d') (h' : d'.Extends others d'') :
    d.Extends (marked ++ others) d'' where
  sound := h'.sound
  rules := by
    obtain ⟨more, hmore, hmarked⟩ := h.rules
    obtain ⟨last, hlast, hothers⟩ := h'.rules
    refine ⟨more ++ last, ?_, ?_⟩
    · rw [hlast, hmore, List.append_assoc]
    · rw [marks, List.flatMap_append]
      exact hmarked.append hothers
  params := fun p hp => h'.params p (h.params p hp)
  aside := fun name ha => h'.aside name (h.aside name ha)

theorem mono (h : d.Extends marked d') (hsub : marked.Sublist others) : d.Extends others d' where
  sound := h.sound
  rules := by
    obtain ⟨more, hmore, hmarked⟩ := h.rules
    exact ⟨more, hmore, hmarked.trans hsub⟩
  params := h.params
  aside := h.aside

theorem filledBy (h : d.Extends marked d') {l : Leaf} (hl : l.FilledBy d.rules) :
    l.FilledBy d'.rules := by
  obtain ⟨more, hmore, _⟩ := h.rules
  rw [hmore]
  exact hl.append

/-- Steps that mark no assignment, or no ordering, add no such rule. -/
theorem mem_of_unmarked (h : d.Extends marked d') {place : Place}
    (hplace : place = .assignments ∨ place = .order) (hmarked : ∀ path, (place, path) ∉ marked)
    {rule : HoleRule} (hrule : rule ∈ d'.rules) (heq : rule.action.place = place) :
    rule ∈ d.rules := by
  obtain ⟨more, hmore, hsub⟩ := h.rules
  rw [hmore] at hrule
  rcases List.mem_append.mp hrule with hold | hnew
  · exact hold
  · rw [← heq] at hplace hmarked
    have hmark := mem_marks hnew (Action.isMarked_of_place hplace)
    exact (hmarked rule.path (hsub.subset hmark)).elim

end Extends

end Draft

namespace Planning

variable {d d' : Draft}

/-- A rule may be recorded if its fragment has holes of earlier rules only, the names it keeps for
itself are set aside, and its declared parameter holds the value at its path. -/
structure Admits (d : Draft) (path : Path) (action : Action) : Prop where
  leaves : ∀ l ∈ action.leaves, l.FilledBy d.rules
  aside : ∀ name, action.Owns name → d.SetAside name
  declared : ∀ name, action.param? = some name →
    ∃ p ∈ d.params, p.name = name ∧ p.path = path ∧ p.transform ≠ .required
  fits : action.Fits

theorem rule_extends {path : Path} {action : Action} {hole : HoleId} (hd : d.Sound)
    (hadmits : Admits d path action) (hrun : (rule path action).run d = .ok (hole, d')) :
    d.Extends (action.mark path) d' ∧ (Leaf.hole action.place hole).FilledBy d'.rules := by
  cases hrun
  have hnumber : (⟨d.nextHole⟩ : HoleId) = ⟨d.rules.length⟩ := by rw [hd.counted]
  refine ⟨⟨?_, ?_, fun _ hp => hp, fun _ ha => ha⟩, ?_⟩
  · exact {
      layered := .snoc hd.layered hnumber hadmits.leaves
      counted := by
        simp only [List.length_append, List.length_singleton, hd.counted]
      taken := hd.taken
      distinct := hd.distinct
      aside := by
        intro other hother
        rcases List.mem_append.mp hother with hold | hnew
        · exact hd.aside other hold
        · rw [List.mem_singleton.mp hnew]
          exact hadmits.aside
      declared := by
        intro other hother
        rcases List.mem_append.mp hother with hold | hnew
        · exact hd.declared other hold
        · rw [List.mem_singleton.mp hnew]
          exact hadmits.declared
      fits := by
        intro other hother
        rcases List.mem_append.mp hother with hold | hnew
        · exact hd.fits other hold
        · rw [List.mem_singleton.mp hnew]
          exact hadmits.fits }
  · refine ⟨[⟨⟨d.nextHole⟩, path, action⟩], rfl, ?_⟩
    simp [marks]
  · exact ⟨⟨⟨d.nextHole⟩, path, action⟩, by simp, rfl, rfl⟩

/-- A draft with further names taken, and declaring no more than it did. -/
theorem names_extends (hd : d.Sound) {names : Names} (htaken : ∀ t ∈ d.names.taken, t ∈ names.taken)
    (hbases : ∀ b ∈ d.names.bases, b ∈ names.bases) : d.Extends [] { d with names } := by
  have haside : ∀ name, d.SetAside name → ({ d with names } : Draft).SetAside name :=
    fun name ha => ⟨Names.isFree_eq_false_of_taken htaken hbases ha.1, ha.2⟩
  refine .of_rules_eq ?_ rfl (fun _ hp => hp) haside
  exact {
    layered := hd.layered
    counted := hd.counted
    taken := fun p hp => htaken _ (hd.taken p hp)
    distinct := hd.distinct
    aside := fun rule hrule name howns => haside name (hd.aside rule hrule name howns)
    declared := hd.declared
    fits := hd.fits }

theorem singleName_extends {base name : String} (hd : d.Sound)
    (hrun : (singleName base).run d = .ok (name, d')) : d.Extends [] d' ∧ d'.SetAside name := by
  cases hrun
  refine ⟨names_extends hd (fun t ht => List.mem_cons_of_mem _ ht) fun b hb => hb, ?_, ?_⟩
  · exact Names.isFree_eq_false_of_mem_taken List.mem_cons_self
  · exact hd.ne_of_isFree (Names.unused_isFree d.names base)

/-- A base is set aside, and all names derived from it. -/
theorem baseName_extends {base name : String} (hd : d.Sound)
    (hrun : (baseName base).run d = .ok (name, d')) :
    d.Extends [] d' ∧ d'.SetAside name ∧
      ∀ derived, Names.derives (lowerAscii name) (lowerAscii derived) = true →
        d'.SetAside derived := by
  cases hrun
  have hfree := (Names.isFreeBase_iff _ _).mp (Names.unused_isFreeBase d.names base)
  refine ⟨names_extends hd (fun t ht => List.mem_cons_of_mem _ ht)
    (fun b hb => List.mem_cons_of_mem _ hb), ⟨?_, ?_⟩, ?_⟩
  · exact Names.isFree_eq_false_of_mem_taken List.mem_cons_self
  · exact hd.ne_of_isFree hfree.1
  · intro derived hderives
    refine ⟨?_, ?_⟩
    · rw [Bool.eq_false_iff]
      intro hstill
      have hnot := ((Names.isFree_iff _ _).mp hstill).2 _ List.mem_cons_self
      rw [hderives] at hnot
      cases hnot
    · intro p hp hname
      have hnot := hfree.2 _ (hd.taken p hp)
      rw [hname, hderives] at hnot
      cases hnot

theorem freshAlias_extends {stem name : String} (hd : d.Sound)
    (hrun : (freshAlias stem).run d = .ok (name, d')) : d.Extends [] d' := by
  cases hrun
  refine .of_rules_eq ?_ rfl (fun _ hp => hp) (fun _ ha => ha)
  exact {
    layered := hd.layered
    counted := hd.counted
    taken := hd.taken
    distinct := hd.distinct
    aside := hd.aside
    declared := hd.declared
    fits := hd.fits }

theorem declare_extends (hd : d.Sound) (path : Path) (transform : Transform) :
    d.Extends [] (d.declare path transform) := by
  have hfree : d.names.isFree (d.names.single path.paramName).1 = true :=
    Names.unused_isFree d.names path.paramName
  have hnew := hd.ne_of_isFree hfree
  have haside : ∀ name, d.SetAside name → (d.declare path transform).SetAside name := by
    intro name ha
    have htaken : ∀ t ∈ d.names.taken, t ∈ (d.declare path transform).names.taken :=
      fun t ht => List.mem_cons_of_mem _ ht
    refine ⟨Names.isFree_eq_false_of_taken htaken (fun b hb => hb) ha.1, ?_⟩
    intro p hp hname
    rcases List.mem_append.mp hp with hold | hlast
    · exact ha.2 p hold hname
    · rw [List.mem_singleton.mp hlast] at hname
      have hunfree : d.names.isFree (d.names.single path.paramName).1 = false :=
        (congrArg d.names.isFree hname).trans ha.1
      exact Bool.noConfusion (hunfree.symm.trans hfree)
  refine .of_rules_eq ?_ rfl (fun p hp => List.mem_append_left _ hp) haside
  exact {
    layered := hd.layered
    counted := hd.counted
    taken := by
      intro p hp
      rcases List.mem_append.mp hp with hold | hlast
      · exact List.mem_cons_of_mem _ (hd.taken p hold)
      · rw [List.mem_singleton.mp hlast]
        exact List.mem_cons_self
    distinct := by
      rw [Draft.declare, List.map_append]
      apply List.nodup_append.mpr
      refine ⟨hd.distinct, List.nodup_singleton _, ?_⟩
      intro name hname other hother
      obtain ⟨p, hp, rfl⟩ := List.mem_map.mp hname
      rw [List.map_singleton, List.mem_singleton] at hother
      rw [hother]
      exact hnew p hp
    aside := fun rule hrule name howns => haside name (hd.aside rule hrule name howns)
    declared := by
      intro rule hrule name hname
      obtain ⟨p, hp, hdeclared⟩ := hd.declared rule hrule name hname
      exact ⟨p, List.mem_append_left _ hp, hdeclared⟩
    fits := hd.fits }

/-- The parameter of a path and form is the one declared before, or it is declared now. -/
theorem param_cases {path : Path} {transform : Transform} {name : String}
    (hrun : (param path transform).run d = .ok (name, d')) :
    (d' = d ∧ ∃ p ∈ d.params, p.name = name ∧ p.path = path ∧ p.transform = transform) ∨
      (name = (d.names.single path.paramName).1 ∧ d' = d.declare path transform) := by
  cases hfound : d.params.find? fun p => p.path == path && p.transform == transform with
  | some p =>
    have hpure : (pure (p.name, d) : Except Error (String × Draft)) = .ok (name, d') := by
      simpa [param, hfound] using hrun
    cases hpure
    have hform := List.find?_some hfound
    rw [Bool.and_eq_true, beq_iff_eq, beq_iff_eq] at hform
    exact Or.inl ⟨rfl, p, List.mem_of_find?_eq_some hfound, rfl, hform⟩
  | none =>
    have hpure : (pure ((d.names.single path.paramName).1, d.declare path transform) :
        Except Error (String × Draft)) = .ok (name, d') := by
      simpa [param, hfound, Draft.declare] using hrun
    cases hpure
    exact Or.inr ⟨rfl, rfl⟩

/-- The parameter of a value is declared for its path and form. -/
theorem declared_of_param {path : Path} {transform : Transform} {name : String}
    (hrun : (param path transform).run d = .ok (name, d')) :
    ∃ p ∈ d'.params, p.name = name ∧ p.path = path ∧ p.transform = transform := by
  rcases param_cases hrun with ⟨rfl, hdeclared⟩ | ⟨rfl, rfl⟩
  · exact hdeclared
  · have hlast : (⟨(d.names.single path.paramName).1, path, transform⟩ : Param) ∈
        (d.declare path transform).params :=
      List.mem_append_right _ (List.mem_singleton.mpr rfl)
    exact ⟨_, hlast, rfl, rfl, rfl⟩

theorem param_extends {path : Path} {transform : Transform} {name : String} (hd : d.Sound)
    (hrun : (param path transform).run d = .ok (name, d')) :
    d.Extends [] d' ∧ ∃ p ∈ d'.params, p.name = name ∧ p.path = path ∧ p.transform = transform := by
  refine ⟨?_, declared_of_param hrun⟩
  rcases param_cases hrun with ⟨rfl, _⟩ | ⟨_, rfl⟩
  · exact .refl hd
  · exact declare_extends hd path transform

theorem rules_of_param {path : Path} {transform : Transform} {name : String}
    (hrun : (param path transform).run d = .ok (name, d')) : d'.rules = d.rules := by
  rcases param_cases hrun with ⟨rfl, _⟩ | ⟨_, rfl⟩
  · rfl
  · rfl

end Planning

/-- All that an expression leaves open is filled by a rule of the draft. -/
def Draft.Fills (d : Draft) (leaves : List Leaf) : Prop := ∀ l ∈ leaves, l.FilledBy d.rules

namespace Draft

variable {d d' : Draft} {ls ms : List Leaf}

theorem fills_nil : d.Fills [] := nofun

theorem Fills.append (h : d.Fills ls) (h' : d.Fills ms) : d.Fills (ls ++ ms) := by
  intro l hl
  rcases List.mem_append.mp hl with hleft | hright
  · exact h l hleft
  · exact h' l hright

/-- An expression that is one hole is filled if the hole is. -/
theorem fills_hole {hole : HoleId} (h : (Leaf.hole .expr hole).FilledBy d.rules) :
    d.Fills ((Expr.hole hole).collect .leaves ()) := by
  rw [Expr.collect]
  intro l hl
  rw [List.mem_singleton.mp hl]
  exact h

theorem Extends.fills {marked : List (Place × Path)} (h : d.Extends marked d') (hls : d.Fills ls) :
    d'.Fills ls := fun l hl => h.filledBy (hls l hl)

end Draft

/-- Planning the items of a list one by one, given what planning one of them does. -/
theorem Planning.mapM_extends {α β : Type} {f : α → Planning β} {marked : α → List (Place × Path)}
    {leaves : β → List Leaf}
    (hstep : ∀ a d d' b, d.Sound → (f a).run d = .ok (b, d') →
      d.Extends (marked a) d' ∧ d'.Fills (leaves b))
    {items : List α} {d d' : Draft} {results : List β} (hd : d.Sound)
    (hrun : (items.mapM f).run d = .ok (results, d')) :
    d.Extends (items.flatMap marked) d' ∧ d'.Fills (results.flatMap leaves) := by
  induction items generalizing d results with
  | nil =>
    rw [List.mapM_nil, run_pure_ok] at hrun
    obtain ⟨rfl, rfl⟩ := hrun
    exact ⟨.refl hd, Draft.fills_nil⟩
  | cons a items ih =>
    rw [List.mapM_cons] at hrun
    simp only [run_bind_ok, run_pure_ok] at hrun
    obtain ⟨b, between, hb, bs, after, hbs, rfl, rfl⟩ := hrun
    obtain ⟨hhead, hfills⟩ := hstep a d between b hd hb
    obtain ⟨htail, hothers⟩ := ih hhead.sound hbs
    rw [List.flatMap_cons, List.flatMap_cons]
    exact ⟨hhead.trans htail, (htail.fills hfills).append hothers⟩

/-- A loop whose steps keep `P` and mark no rule keeps `P` and marks none. -/
theorem Planning.foldlM_extends {α β : Type} {f : β → α → Planning β} (P : β → Prop)
    (hstep : ∀ b a (d d' : Draft) b', d.Sound → P b → (f b a).run d = .ok (b', d') →
      d.Extends [] d' ∧ P b')
    {items : List α} {d d' : Draft} {b b' : β} (hd : d.Sound) (hb : P b)
    (hrun : (items.foldlM f b).run d = .ok (b', d')) : d.Extends [] d' ∧ P b' := by
  induction items generalizing d b with
  | nil =>
    rw [List.foldlM_nil, run_pure_ok] at hrun
    obtain ⟨rfl, rfl⟩ := hrun
    exact ⟨.refl hd, hb⟩
  | cons a items ih =>
    rw [List.foldlM_cons, run_bind_ok] at hrun
    obtain ⟨next, between, hnext, hrest⟩ := hrun
    obtain ⟨hhead, hkept⟩ := hstep b a d between next hd hb hnext
    obtain ⟨htail, hlast⟩ := ih hhead.sound hkept hrest
    exact ⟨hhead.trans htail, hlast⟩

end ShapeSql
