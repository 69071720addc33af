import Mathlib.Data.Finset.Card
import ShapeSql.Proofs.Shape.Unpaged

/-!
Unfolding ends by itself. A shape met again below itself is unfolded only through a declared field that
is not above it yet, so each field that is unfolded brings a shape or a declared field that its branch
did not have before. There are only so many of both, and the bound on a branch exceeds them: it is never
reached, and every field tree is unfolded down to its scalar and cyclic fields.
-/

namespace ShapeSql

/-- The field stands for the declared one. -/
structure Field.DeclaredBy (f : Field) (d : FieldDef) : Prop where
  name : f.name = d.name
  type : f.type = d.type
  directives : f.directives = d.directives

namespace Shapes

/-- The declared fields of all shapes, each with the name of its shape. -/
def declaredFields (shapes : Shapes) : List (String × String) :=
  shapes.all.flatMap fun shape => shape.fields.map fun d => (shape.name, d.name)

theorem length_declaredFields (shapes : Shapes) :
    shapes.declaredFields.length = shapes.fieldCount := by
  have hfold : ∀ (all : List Shape) (count : Nat),
      all.foldl (fun count shape => count + shape.fields.length) count =
        count + (all.flatMap fun shape => shape.fields.map fun d => (shape.name, d.name)).length := by
    intro all
    induction all with
    | nil => exact fun _ => rfl
    | cons shape all ih =>
      intro count
      rw [List.foldl_cons, ih, List.flatMap_cons, List.length_append, List.length_map, Nat.add_assoc]
  have hall := hfold shapes.all 0
  rw [Nat.zero_add] at hall
  exact hall.symm

theorem mem_of_get? {shapes : Shapes} {name : String} {shape : Shape}
    (h : shapes.get? name = some shape) : shape ∈ shapes.all ∧ shape.name = name := by
  unfold get? at h
  have hname := List.find?_some h
  exact ⟨List.mem_of_find?_eq_some h, eq_of_beq hname⟩

end Shapes

namespace FieldTree

mutual

/-- Below each field with a shape, unless it is cyclic, stand the fields of the shape, in order. -/
def Unfolds (shapes : Shapes) : FieldTree → Prop
  | .node field kids =>
    (∀ name, field.type.shapeName? = some name → field.cyclic = false →
      ∃ shape, shapes.get? name = some shape ∧
        List.Forall₂ (fun d t => t.label.DeclaredBy d) shape.fields kids) ∧
    UnfoldsAll shapes kids

def UnfoldsAll (shapes : Shapes) : List FieldTree → Prop
  | [] => True
  | t :: ts => Unfolds shapes t ∧ UnfoldsAll shapes ts

end

theorem unfoldsAll_iff {shapes : Shapes} {ts : List FieldTree} :
    UnfoldsAll shapes ts ↔ ∀ t ∈ ts, Unfolds shapes t := by
  induction ts with
  | nil => exact ⟨fun _ => nofun, fun _ => trivial⟩
  | cons t ts ih => rw [UnfoldsAll, List.forall_mem_cons, ih]

/-- The shapes of the fields on a branch. -/
def shapesOf (above : List Field) : Finset String :=
  (above.filterMap fun a => a.type.shapeName?).toFinset

/-- The declared fields on a branch. -/
def originsOf (above : List Field) : Finset (String × String) :=
  (above.filterMap Field.origin).toFinset

theorem mem_shapesOf {above : List Field} {name : String} :
    name ∈ shapesOf above ↔ ∃ a ∈ above, a.type.shapeName? = some name := by
  rw [shapesOf, List.mem_toFinset, List.mem_filterMap]

theorem mem_originsOf {above : List Field} {origin : String × String} :
    origin ∈ originsOf above ↔ ∃ a ∈ above, a.origin = some origin := by
  rw [originsOf, List.mem_toFinset, List.mem_filterMap]

/-- The registered shapes that are not on a branch. -/
def freshShapes (shapes : Shapes) (above : List Field) : Finset String :=
  (shapes.all.map Shape.name).toFinset \ shapesOf above

/-- The declared fields that are not on a branch. -/
def freshFields (shapes : Shapes) (above : List Field) : Finset (String × String) :=
  shapes.declaredFields.toFinset \ originsOf above

/-- How many shapes and declared fields a branch has not met yet. -/
def room (shapes : Shapes) (above : List Field) : Nat :=
  (freshShapes shapes above).card + (freshFields shapes above).card

theorem room_le (shapes : Shapes) (above : List Field) :
    room shapes above ≤ shapes.all.length + shapes.fieldCount := by
  have hshapes : (freshShapes shapes above).card ≤ shapes.all.length := by
    refine (Finset.card_le_card Finset.sdiff_subset).trans ((List.toFinset_card_le _).trans ?_)
    rw [List.length_map]
  have hfields : (freshFields shapes above).card ≤ shapes.fieldCount := by
    refine (Finset.card_le_card Finset.sdiff_subset).trans ((List.toFinset_card_le _).trans ?_)
    rw [shapes.length_declaredFields]
  exact Nat.add_le_add hshapes hfields

theorem freshShapes_cons (shapes : Shapes) (field : Field) (above : List Field) :
    freshShapes shapes (field :: above) ⊆ freshShapes shapes above := by
  refine Finset.sdiff_subset_sdiff (Finset.Subset.refl _) fun name hname => ?_
  obtain ⟨a, ha, hshape⟩ := mem_shapesOf.mp hname
  exact mem_shapesOf.mpr ⟨a, List.mem_cons_of_mem _ ha, hshape⟩

theorem freshFields_cons (shapes : Shapes) (field : Field) (above : List Field) :
    freshFields shapes (field :: above) ⊆ freshFields shapes above := by
  refine Finset.sdiff_subset_sdiff (Finset.Subset.refl _) fun origin horigin => ?_
  obtain ⟨a, ha, hdeclared⟩ := mem_originsOf.mp horigin
  exact mem_originsOf.mpr ⟨a, List.mem_cons_of_mem _ ha, hdeclared⟩

theorem room_cons_le (shapes : Shapes) (field : Field) (above : List Field) :
    room shapes (field :: above) ≤ room shapes above :=
  Nat.add_le_add (Finset.card_le_card (freshShapes_cons shapes field above))
    (Finset.card_le_card (freshFields_cons shapes field above))

/-- When a field is marked cyclic. -/
theorem isCyclic_iff {field : Field} {name : String} {above : List Field} :
    isCyclic field name above = true ↔ (∃ a ∈ above, a.type.shapeName? = some name) ∧
      (field.directives.via = none ∨ ∃ a ∈ above, a.origin.isSome ∧ a.origin = field.origin) := by
  rw [isCyclic, Bool.and_eq_true, Bool.or_eq_true, List.any_eq_true, List.any_eq_true,
    Option.isNone_iff_eq_none]
  simp only [beq_iff_eq, Bool.and_eq_true]

/-- A declared field that is unfolded takes room: its shape or its declaration is new to the branch. -/
theorem room_cons_lt {shapes : Shapes} {field : Field} {name : String} {shape : Shape}
    {origin : String × String} {above : List Field} (hname : field.type.shapeName? = some name)
    (hshape : shapes.get? name = some shape) (horigin : field.origin = some origin)
    (hdeclared : origin ∈ shapes.declaredFields) (hopen : ¬isCyclic field name above = true) :
    room shapes (field :: above) < room shapes above := by
  rw [isCyclic_iff] at hopen
  have hshapes := freshShapes_cons shapes field above
  have hfields := freshFields_cons shapes field above
  by_cases hmet : ∃ a ∈ above, a.type.shapeName? = some name
  · have hnew : origin ∉ originsOf above := by
      intro hold
      obtain ⟨a, ha, hsame⟩ := mem_originsOf.mp hold
      exact hopen ⟨hmet, Or.inr ⟨a, ha, hsame ▸ rfl, hsame.trans horigin.symm⟩⟩
    refine Nat.add_lt_add_of_le_of_lt (Finset.card_le_card hshapes) (Finset.card_lt_card ?_)
    refine (Finset.ssubset_iff_of_subset hfields).mpr ⟨origin, ?_, fun hstill => ?_⟩
    · exact Finset.mem_sdiff.mpr ⟨List.mem_toFinset.mpr hdeclared, hnew⟩
    · exact (Finset.mem_sdiff.mp hstill).2 (mem_originsOf.mpr ⟨field, List.mem_cons_self, horigin⟩)
  · obtain ⟨hmem, hsame⟩ := Shapes.mem_of_get? hshape
    refine Nat.add_lt_add_of_lt_of_le (Finset.card_lt_card ?_) (Finset.card_le_card hfields)
    refine (Finset.ssubset_iff_of_subset hshapes).mpr ⟨name, ?_, fun hstill => ?_⟩
    · refine Finset.mem_sdiff.mpr ⟨?_, fun hold => hmet (mem_shapesOf.mp hold)⟩
      exact List.mem_toFinset.mpr (List.mem_map.mpr ⟨shape, hmem, hsame⟩)
    · exact (Finset.mem_sdiff.mp hstill).2 (mem_shapesOf.mpr ⟨field, List.mem_cons_self, hname⟩)

/-- A field below which unfolding ends before `depth` is used up. A declared field needs no more than
its branch has room for, and one at the top, which no shape declares, one step more. -/
def Settles (shapes : Shapes) (depth : Nat) (above : List Field) (field : Field) : Prop :=
  match field.origin with
  | none => room shapes above + 1 < depth
  | some origin => origin ∈ shapes.declaredFields ∧ room shapes above < depth

theorem Settles.pos {shapes : Shapes} {depth : Nat} {above : List Field} {field : Field}
    (h : Settles shapes depth above field) : 0 < depth := by
  unfold Settles at h
  split at h
  · omega
  · omega

theorem settles_of_le {shapes : Shapes} {depth : Nat} {above : List Field} {field : Field}
    (htop : field.origin = none) (hdepth : depthBound shapes ≤ depth) :
    Settles shapes depth above field := by
  have hroom := room_le shapes above
  rw [depthBound] at hdepth
  rw [Settles, htop]
  show room shapes above + 1 < depth
  omega

/-- The fields of a shape settle in one step less than the field above them. -/
theorem Settles.below {shapes : Shapes} {depth : Nat} {above : List Field} {field : Field}
    {name : String} {shape : Shape} {d : FieldDef} {path : Path}
    (h : Settles shapes (depth + 1) above field) (hname : field.type.shapeName? = some name)
    (hshape : shapes.get? name = some shape) (hopen : ¬isCyclic field name above = true)
    (hd : d ∈ shape.fields) :
    Settles shapes depth (field :: above) (place d path (some (shape.name, d.name))) := by
  have hdeclared : (shape.name, d.name) ∈ shapes.declaredFields :=
    List.mem_flatMap.mpr ⟨shape, (Shapes.mem_of_get? hshape).1, List.mem_map.mpr ⟨d, hd, rfl⟩⟩
  refine ⟨hdeclared, ?_⟩
  unfold Settles at h
  split at h
  · have := room_cons_le shapes field above
    omega
  · rename_i origin horigin
    have := room_cons_lt hname hshape horigin h.1 hopen
    omega

/-- Where unfolding settles, the depth is not reached before the fields are unfolded. -/
theorem expand_unfolds {shapes : Shapes} {depth : Nat} {above : List Field} {field : Field}
    {t : FieldTree} (hsettles : Settles shapes depth above field) (hcyclic : field.cyclic = false)
    (h : expand shapes depth above field = .ok t) : t.Unfolds shapes := by
  induction depth generalizing above field t with
  | zero => exact absurd hsettles.pos (Nat.lt_irrefl 0)
  | succ depth ih =>
    rcases expand_cases h with
      ⟨hscalar, rfl⟩ | ⟨name, shape, hname, hshape, ⟨_, rfl⟩ | ⟨hopen, kids, hkids, rfl⟩⟩
    · exact ⟨fun name hname => absurd (hscalar.symm.trans hname) nofun, trivial⟩
    · exact ⟨fun _ _ hnot => Bool.noConfusion hnot, trivial⟩
    · have hmade := forall₂_of_mapM_ok hkids
      constructor
      · intro other hother _
        rw [hname, Option.some.injEq] at hother
        refine ⟨shape, hother ▸ hshape, hmade.imp ?_⟩
        intro d kid hkid
        obtain ⟨table, cyclic, hlabel⟩ := label_expand hkid
        rw [hlabel]
        exact ⟨rfl, rfl, rfl⟩
      · rw [unfoldsAll_iff]
        intro kid hkid
        obtain ⟨d, hd, hexpand⟩ := mem_left_of_forall₂ hmade hkid
        have hbound : Settles shapes (depth + 1) above { field with table := shape.table } := hsettles
        exact ih (hbound.below hname hshape hopen hd) rfl hexpand

/-- The tree of a type is unfolded down to its scalar and cyclic fields. -/
theorem ofType_unfolds {name : String} {type : FieldType} {shapes : Shapes} {t : FieldTree}
    (h : ofType name type shapes = .ok t) : t.Unfolds shapes :=
  expand_unfolds (settles_of_le rfl (Nat.le_refl _)) rfl h

/-- The root of the tree of a type is never cyclic. -/
theorem ofType_label {name : String} {type : FieldType} {shapes : Shapes} {t : FieldTree}
    (h : ofType name type shapes = .ok t) : t.label.type = type ∧ t.label.cyclic = false := by
  obtain ⟨table, cyclic, hlabel⟩ := label_expand h
  refine ⟨by rw [hlabel]; rfl, ?_⟩
  rcases expand_cases h with ⟨_, rfl⟩ | ⟨name, shape, _, _, ⟨hagain, _⟩ | ⟨_, kids, _, rfl⟩⟩
  · rfl
  · cases hagain
  · rfl

end FieldTree

/-- The output of a declared specification is the tree of the type that it returns. -/
theorem SpecDeclaration.output_unfolds {declaration : SpecDeclaration} {shapes : Shapes}
    {spec : QuerySpec} {output : FieldTree} (h : declaration.build shapes = .ok spec)
    (houtput : spec.output = some output) :
    declaration.rowResult? = some (spec.outputKind, output.label.type) ∧
      output.label.cyclic = false ∧ output.Unfolds shapes := by
  obtain ⟨arguments, found, kind, _, hyields, rfl⟩ := build_inv h
  cases hyields with
  | rows hresult htree =>
    cases houtput
    obtain ⟨htype, hcyclic⟩ := FieldTree.ofType_label htree
    exact ⟨htype ▸ hresult, hcyclic, FieldTree.ofType_unfolds htree⟩
  | nothing => cases houtput

end ShapeSql
