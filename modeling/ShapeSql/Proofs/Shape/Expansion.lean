import ShapeSql.Proofs.Shape.Pushed
import ShapeSql.Proofs.Shape.Unfolding

namespace ShapeSql

namespace Shapes

/-- A type reaches its own shape, and what the fields of that shape reach. -/
inductive Reaches (shapes : Shapes) : FieldType → String → Prop where
  | own {type : FieldType} {name : String} : type.shapeName? = some name → Reaches shapes type name
  | through {type : FieldType} {name other : String} {shape : Shape} {d : FieldDef} :
    type.shapeName? = some name → shapes.get? name = some shape → d ∈ shape.fields →
      Reaches shapes d.type other → Reaches shapes type other

/-- All shapes that a type reaches are registered. -/
def Registers (shapes : Shapes) (type : FieldType) : Prop :=
  ∀ name, shapes.Reaches type name → (shapes.get? name).isSome

/-- Whether the shape of a type, if it has one, is registered. -/
def names (shapes : Shapes) (type : FieldType) : Bool :=
  type.shapeName?.all fun name => (shapes.get? name).isSome

theorem registers_of_names {shapes : Shapes} {type : FieldType} (htype : shapes.names type = true)
    (hfields : ∀ shape ∈ shapes.all, ∀ d ∈ shape.fields, shapes.names d.type = true) :
    shapes.Registers type := by
  intro name hreaches
  induction hreaches with
  | own hname =>
    rw [names, hname] at htype
    exact htype
  | through _ hshape hd _ ih => exact ih (hfields _ (mem_of_get? hshape).1 _ hd)

end Shapes

/-- The field stands for the declared one, at this path. -/
def Field.PlacedAs (f : Field) (d : FieldDef) (path : Path) (origin : Option (String × String)) : Prop :=
  ∃ table cyclic, f = { FieldTree.place d path origin with table, cyclic }

/-- A field with a shape that is not marked cyclic. -/
def Field.Expands (f : Field) : Prop := f.type.shapeName?.isSome ∧ f.cyclic = false

instance (f : Field) : Decidable f.Expands := inferInstanceAs (Decidable (_ ∧ _))

/-- The shape and field that declare this one, if any, are registered, and it has the declared type. -/
def Field.Declared (shapes : Shapes) (f : Field) : Prop :=
  ∀ s n, f.origin = some (s, n) →
    ∃ shape, shapes.get? s = some shape ∧ ∃ d ∈ shape.fields, d.name = n ∧ f.type = d.type

namespace FieldTree

/-- Unfolding gives the same at all depths where it settles. -/
theorem expand_depth {shapes : Shapes} {depth depth' : Nat} {above : List Field} {field : Field}
    (h : Settles shapes depth above field) (h' : Settles shapes depth' above field) :
    expand shapes depth above field = expand shapes depth' above field := by
  induction depth generalizing depth' above field with
  | zero => exact absurd h.pos (Nat.lt_irrefl 0)
  | succ depth ih =>
    obtain ⟨depth', rfl⟩ := Nat.exists_eq_add_of_lt h'.pos
    rw [Nat.zero_add] at h' ⊢
    unfold expand
    cases hname : field.type.shapeName? with
    | none => rfl
    | some name =>
      cases hshape : shapes.get? name with
      | none => simp only [hshape]
      | some shape =>
        simp only [hshape]
        split
        · rfl
        · rename_i hopen
          have hbound : Settles shapes (depth + 1) above { field with table := shape.table } := h
          have hbound' : Settles shapes (depth' + 1) above { field with table := shape.table } := h'
          rw [mapM_congr fun d hd => ih (hbound.below hname hshape hopen hd)
            (hbound'.below hname hshape hopen hd)]

/-- Unfolding fails only where a shape is missing. -/
theorem expand_ok {shapes : Shapes} {depth : Nat} {above : List Field} {field : Field}
    (h : shapes.Registers field.type) : ∃ t, expand shapes depth above field = .ok t := by
  induction depth generalizing above field with
  | zero => exact ⟨_, rfl⟩
  | succ depth ih =>
    unfold expand
    cases hname : field.type.shapeName? with
    | none => exact ⟨_, rfl⟩
    | some name =>
      obtain ⟨shape, hshape⟩ := Option.isSome_iff_exists.mp (h name (.own hname))
      simp only [hshape]
      split
      · exact ⟨_, rfl⟩
      · obtain ⟨kids, hkids, _⟩ := mapM_ok (f := fun d => expand shapes depth
          ({ field with table := shape.table } :: above)
            (place d (field.path.join d.name) (some (shape.name, d.name)))) shape.fields
          fun d hd => ih fun other hreaches => h other (.through hname hshape hd hreaches)
        exact ⟨_, except_bind_ok.mpr ⟨kids, hkids, rfl⟩⟩

/-- What unfolding says of a field in its place. -/
structure Unfolded (shapes : Shapes) (v : Tree.Visit Field) : Prop where
  cyclic : v.label.cyclic = true ↔ ∃ name, v.label.type.shapeName? = some name ∧
    (∃ a ∈ v.ancestors, a.type.shapeName? = some name) ∧
    (v.label.directives.via = none ∨ ∃ a ∈ v.ancestors, a.origin.isSome ∧ a.origin = v.label.origin)
  closed : ¬v.label.Expands → v.children = []
  opened : v.label.Expands → ∃ name shape, v.label.type.shapeName? = some name ∧
    shapes.get? name = some shape ∧ v.label.table = shape.table ∧
    List.Forall₂ (fun d kid => kid.PlacedAs d (v.label.path.join d.name) (some (shape.name, d.name)))
      shape.fields v.children
  again : v.label.Expands → ∀ a ∈ v.ancestors, a.type.shapeName? = v.label.type.shapeName? →
    v.label.directives.via.isSome
  once : v.label.Expands → ∀ s n, v.label.origin = some (s, n) → ∀ a ∈ v.ancestors,
    a.origin = some (s, n) → ∃ shape, shapes.get? s = some shape ∧
      ∃ d ∈ shape.fields, ∃ d' ∈ shape.fields, d.name = n ∧ d'.name = n ∧ d.type ≠ d'.type

/-- A field that is marked as its place demands expands neither its shape nor its declaration again
without reason. -/
theorem Unfolded.of_marked {shapes : Shapes} {v : Tree.Visit Field}
    (hdeclared : v.label.Declared shapes) (habove : ∀ a ∈ v.ancestors, a.Declared shapes)
    (hcyclic : v.label.cyclic = true ↔ ∃ name, v.label.type.shapeName? = some name ∧
      (∃ a ∈ v.ancestors, a.type.shapeName? = some name) ∧
      (v.label.directives.via = none ∨
        ∃ a ∈ v.ancestors, a.origin.isSome ∧ a.origin = v.label.origin))
    (hclosed : ¬v.label.Expands → v.children = [])
    (hopened : v.label.Expands → ∃ name shape, v.label.type.shapeName? = some name ∧
      shapes.get? name = some shape ∧ v.label.table = shape.table ∧
      List.Forall₂ (fun d kid => kid.PlacedAs d (v.label.path.join d.name) (some (shape.name, d.name)))
        shape.fields v.children) : Unfolded shapes v := by
  refine ⟨hcyclic, hclosed, hopened, fun hexpands a ha hsame => ?_, ?_⟩
  · obtain ⟨name, hname⟩ := Option.isSome_iff_exists.mp hexpands.1
    have hnot := mt hcyclic.mpr (Bool.eq_false_iff.mp hexpands.2)
    by_contra hvia
    refine hnot ⟨name, hname, ⟨a, ha, hsame.trans hname⟩, Or.inl ?_⟩
    exact Option.not_isSome_iff_eq_none.mp hvia
  · intro hexpands s n horigin a ha hagain
    obtain ⟨name, hname⟩ := Option.isSome_iff_exists.mp hexpands.1
    obtain ⟨shape, hshape, d, hd, hdname, hdtype⟩ := hdeclared s n horigin
    obtain ⟨shape', hshape', d', hd', hdname', hdtype'⟩ := habove a ha s n hagain
    rw [hshape, Option.some.injEq] at hshape'
    subst hshape'
    refine ⟨shape, hshape, d, hd, d', hd', hdname, hdname', fun hsame => ?_⟩
    -- Fields of one type have one shape, and the second of them would have been marked.
    have htype : a.type = v.label.type := hdtype'.trans (hsame.symm.trans hdtype.symm)
    have hmarked := hcyclic.mpr ⟨name, hname, ⟨a, ha, htype ▸ hname⟩,
      Or.inr ⟨a, ha, hagain ▸ rfl, hagain.trans horigin.symm⟩⟩
    exact Bool.noConfusion (hexpands.2.symm.trans hmarked)

theorem declared_place {shapes : Shapes} {name : String} {shape : Shape} {d : FieldDef} {path : Path}
    (hshape : shapes.get? name = some shape) (hd : d ∈ shape.fields) :
    (place d path (some (shape.name, d.name))).Declared shapes := by
  rintro s n ⟨⟩
  rw [(Shapes.mem_of_get? hshape).2]
  exact ⟨shape, hshape, d, hd, rfl, rfl⟩

/-- Every field of the tree that unfolding makes is unfolded in its place. -/
theorem expand_unfolded {shapes : Shapes} {depth : Nat} {above : List Field} {field : Field}
    {t : FieldTree} (hsettles : Settles shapes depth above field) (hfresh : field.cyclic = false)
    (hdeclared : field.Declared shapes) (habove : ∀ a ∈ above, a.Declared shapes)
    (h : expand shapes depth above field = .ok t) :
    ∀ v ∈ t.visitsBelow above, Unfolded shapes v := by
  induction depth generalizing above field t with
  | zero => exact absurd hsettles.pos (Nat.lt_irrefl 0)
  | succ depth ih =>
    rcases expand_cases h with
      ⟨hscalar, rfl⟩ | ⟨name, shape, hname, hshape, ⟨hcyclic, rfl⟩ | ⟨hopen, kids, hkids, rfl⟩⟩
    · rw [Tree.visitsBelow, List.forall_mem_cons]
      refine ⟨.of_marked hdeclared habove ?_ (fun _ => rfl) fun hexpands => ?_, List.forall_mem_nil _⟩
      · refine iff_of_false (Bool.eq_false_iff.mp hfresh) ?_
        rintro ⟨name, hname, _⟩
        cases hscalar.symm.trans hname
      · have hshape := hexpands.1
        rw [hscalar] at hshape
        cases hshape
    · have hbound : Field.Declared shapes { field with table := shape.table, cyclic := true } := hdeclared
      rw [Tree.visitsBelow, List.forall_mem_cons]
      refine ⟨.of_marked hbound habove ?_ (fun _ => rfl) fun hexpands => ?_, List.forall_mem_nil _⟩
      · exact iff_of_true rfl ⟨name, hname, isCyclic_iff.mp hcyclic⟩
      · cases hexpands.2
    · have hbound : Field.Declared shapes { field with table := shape.table } := hdeclared
      have hmade := forall₂_of_mapM_ok hkids
      rw [Tree.visitsBelow, List.forall_mem_cons]
      refine ⟨.of_marked hbound habove ?_ (fun hexpands => ?_) fun _ => ?_, ?_⟩
      · refine iff_of_false (Bool.eq_false_iff.mp hfresh) ?_
        rintro ⟨other, hother, hagain⟩
        cases hname.symm.trans hother
        exact hopen (isCyclic_iff.mpr hagain)
      · exact absurd ⟨Option.isSome_of_eq_some hname, hfresh⟩ hexpands
      · refine ⟨name, shape, hname, hshape, rfl, List.forall₂_map_right_iff.mpr (hmade.imp ?_)⟩
        intro d kid hkid
        exact label_expand hkid
      · intro v hv
        obtain ⟨kid, hkid, hv⟩ := Tree.mem_visitsBelowAll.mp hv
        obtain ⟨d, hd, hexpand⟩ := mem_left_of_forall₂ hmade hkid
        have hsettlesBound :
          Settles shapes (depth + 1) above { field with table := shape.table } := hsettles
        exact ih (hsettlesBound.below hname hshape hopen hd) rfl (declared_place hshape hd)
          (List.forall_mem_cons.mpr ⟨hbound, habove⟩) hexpand v hv

/-- The tree of a type, as its entries show it. -/
structure OfType (shapes : Shapes) (name : String) (type : FieldType) (t : FieldTree) : Prop where
  root : t.label.PlacedAs ⟨name, type, false, default⟩ .root none
  linked : Tree.Linked t.arena
  unfolded : ∀ e ∈ t.arena, Unfolded shapes (e.visit t.arena)

/-- The tree of an argument list, as its entries show it: the arguments stand below an anonymous root. -/
structure OfFields (shapes : Shapes) (fields : List FieldDef) (t : FieldTree) : Prop where
  root : t.label = argumentRoot
  arguments : List.Forall₂ (fun d kid => kid.PlacedAs d (Path.root.join d.name) none) fields
    (t.children.map Tree.label)
  linked : Tree.Linked t.arena
  unfolded : ∀ e ∈ t.arena, e.id ≠ 0 → Unfolded shapes (e.visit t.arena)

theorem declared_of_top {shapes : Shapes} {field : Field} (h : field.origin = none) :
    field.Declared shapes := by
  intro s n horigin
  cases h.symm.trans horigin

theorem OfType.of_ok {shapes : Shapes} {name : String} {type : FieldType} {t : FieldTree}
    (h : ofType name type shapes = .ok t) : OfType shapes name type t where
  root := label_expand h
  linked := Tree.arena_linked t
  unfolded := by
    have hvisits := expand_unfolded (settles_of_le rfl (Nat.le_refl _)) rfl (declared_of_top rfl)
      (List.forall_mem_nil _) h
    intro e he
    refine hvisits _ ?_
    show e.visit t.arena ∈ t.visits
    rw [← Tree.arena_visits]
    exact List.mem_map_of_mem he

theorem OfFields.of_ok {shapes : Shapes} {fields : List FieldDef} {t : FieldTree}
    (h : ofFields fields shapes = .ok t) : OfFields shapes fields t := by
  obtain ⟨kids, hkids, hroot⟩ := except_bind_ok.mp h
  cases hroot
  have hmade := forall₂_of_mapM_ok hkids
  refine ⟨rfl, List.forall₂_map_right_iff.mpr (hmade.imp fun d kid hkid => label_expand hkid),
    Tree.arena_linked _, ?_⟩
  intro e he hid
  have hseen : (Tree.arenaFromAll 1 0 kids).map (Tree.Entry.visit (Tree.node argumentRoot kids).arena) =
      Tree.visitsBelowAll [argumentRoot] kids :=
    (List.cons.inj (Tree.arena_visits (Tree.node argumentRoot kids))).2
  have hbelow : e ∈ Tree.arenaFromAll 1 0 kids := by
    rcases List.mem_cons.mp he with rfl | hbelow
    · exact absurd rfl hid
    · exact hbelow
  have hv := List.mem_map_of_mem (f := Tree.Entry.visit (Tree.node argumentRoot kids).arena) hbelow
  rw [hseen] at hv
  obtain ⟨kid, hkid, hv⟩ := Tree.mem_visitsBelowAll.mp hv
  obtain ⟨d, _, hexpand⟩ := mem_left_of_forall₂ hmade hkid
  exact expand_unfolded (settles_of_le rfl (Nat.le_refl _)) rfl (declared_of_top rfl)
    (List.forall_mem_singleton.mpr (declared_of_top rfl)) hexpand _ hv

theorem ofFields_ok {shapes : Shapes} {fields : List FieldDef}
    (h : ∀ d ∈ fields, shapes.Registers d.type) : ∃ t, ofFields fields shapes = .ok t := by
  obtain ⟨kids, hkids, _⟩ := mapM_ok (f := fun d => expand shapes (depthBound shapes) [argumentRoot]
    (place d (Path.root.join d.name) none)) fields fun d hd => expand_ok (h d hd)
  exact ⟨_, except_bind_ok.mpr ⟨kids, hkids, rfl⟩⟩

/-- Unfolding ends by itself, since no greater depth changes it, and succeeds where all shapes are
registered; the trees that it makes are linked and unfolded to the end, and their entries are those that
are pushed one by one, failures alike. -/
theorem unfolds_to_end (shapes : Shapes) :
    (∀ depth above field, field.origin = none → depthBound shapes ≤ depth →
      expand shapes depth above field = expand shapes (depthBound shapes) above field) ∧
    (∀ name type, shapes.Registers type → ∃ t, ofType name type shapes = .ok t) ∧
    (∀ fields, (∀ d ∈ fields, shapes.Registers d.type) → ∃ t, ofFields fields shapes = .ok t) ∧
    (∀ name type t, ofType name type shapes = .ok t → OfType shapes name type t) ∧
    (∀ fields t, ofFields fields shapes = .ok t → OfFields shapes fields t) ∧
    (∀ name type, pushType name type shapes = (ofType name type shapes).map Tree.arena) ∧
    ∀ fields, pushFields fields shapes = (ofFields fields shapes).map Tree.arena := by
  refine ⟨fun depth above field htop hdepth => ?_, fun name type h => expand_ok h,
    fun fields => ofFields_ok, fun name type t => .of_ok, fun fields t => .of_ok,
    fun name type => pushType_eq name type shapes, fun fields => pushFields_eq fields shapes⟩
  exact expand_depth (settles_of_le htop hdepth) (settles_of_le htop (Nat.le_refl _))

/-- Two fields of one name, each of which leads to the other's shape. -/
def namesakes : Shapes where
  all := [
    ⟨"Person", none, [⟨"Owned", .shape "Pet", false, default⟩, ⟨"Owned", .shape "House", false, default⟩]⟩,
    ⟨"Pet", none, [⟨"Owner", .shape "Person", false,
      { (default : Directives) with via := some ⟨"Pet.OwnerId -> Person.Id", none⟩ }⟩]⟩,
    ⟨"House", none, [⟨"Id", .i32, false, default⟩]⟩]

/-- A shape that has two fields of one name can have both on a branch, unfolded for one declaration. -/
theorem namesakes_unfold_twice : namesakes.Registers (.shape "Person") ∧
    ∃ t, ofType "" (.shape "Person") namesakes = .ok t ∧ ∃ v ∈ t.visits, ∃ a ∈ v.ancestors,
      v.label.Expands ∧ a.Expands ∧ v.label.origin = some ("Person", "Owned") ∧
        a.origin = some ("Person", "Owned") := by
  refine ⟨Shapes.registers_of_names (by decide) (by decide), _, rfl, ?_⟩
  decide

end FieldTree
end ShapeSql
