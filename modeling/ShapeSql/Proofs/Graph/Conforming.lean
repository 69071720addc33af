import Mathlib.Algebra.Group.Nat.Defs
import ShapeSql.Proofs.Graph.Restored
import ShapeSql.Proofs.Shape.Unfolding

namespace ShapeSql

namespace FieldType

theorem shapeName?_element (type : FieldType) : type.element.shapeName? = type.shapeName? := by
  have hinner : type.element.element = type.element := by
    induction type with
    | list _ ih => exact ih
    | _ => rfl
  rw [shapeName?, hinner, shapeName?]

theorem isList_element (type : FieldType) : type.element.isList = false := by
  induction type with
  | list _ ih => exact ih
  | _ => rfl

theorem element_of_not_isList {type : FieldType} (h : type.isList = false) : type.element = type := by
  cases type with
  | list _ => cases h
  | _ => rfl

theorem exists_shapeName {type : FieldType} (h : type.isScalar = false) :
    ∃ name, type.shapeName? = some name := by
  induction type with
  | list _ ih =>
    obtain ⟨name, hname⟩ := ih h
    exact ⟨name, hname⟩
  | shape name => exact ⟨name, rfl⟩
  | _ => cases h

end FieldType

/-- The fields of a shape that its records show. -/
def Shape.shownFields (shape : Shape) : List FieldDef :=
  shape.fields.filter fun d => !d.directives.exclude

/-- One entry for each name of the fields, and no other. -/
def Record.fits (fields : List FieldDef) (members : Record) : Bool :=
  decide members.names.Nodup && members.names.all (fun name => fields.any fun d => d.name == name) &&
    fields.all fun d => members.names.contains d.name

namespace Shapes

mutual

/-- Whether a value is what the type says: a record of a shape has an entry for each name of its shown
fields, which hold what their types say in turn; a list of a shape is a list of such records, and a
single shape such a record or null. Of scalars nothing is asked. -/
def holds (shapes : Shapes) (type : FieldType) : Value → Bool
  | .null => type.isScalar || !type.isList
  | .list items => type.isScalar || type.isList && holdsItems shapes type.element items
  | .record members => type.isScalar || !type.isList &&
    (type.shapeName?.bind shapes.get?).any fun shape =>
      Record.fits shape.shownFields members && holdsEntries shapes shape.shownFields members
  | _ => type.isScalar

def holdsItems (shapes : Shapes) (type : FieldType) : List Value → Bool
  | [] => true
  | item :: items => item.isRecord && holds shapes type item && holdsItems shapes type items

def holdsEntries (shapes : Shapes) (fields : List FieldDef) : List (String × Value) → Bool
  | [] => true
  | (name, value) :: rest =>
    fields.all (fun d => d.name != name || holds shapes d.type value) && holdsEntries shapes fields rest

end

section Holds

variable {shapes : Shapes} {type : FieldType}

theorem holds_of_isScalar (h : type.isScalar = true) (value : Value) :
    shapes.holds type value = true := by
  cases value <;> simp [holds, h]

theorem holdsItems_iff {items : List Value} : shapes.holdsItems type items = true ↔
    ∀ item ∈ items, item.isRecord = true ∧ shapes.holds type item = true := by
  induction items with
  | nil => exact ⟨fun _ => nofun, fun _ => rfl⟩
  | cons item items ih =>
    rw [holdsItems, Bool.and_eq_true, Bool.and_eq_true, ih, List.forall_mem_cons]

theorem holdsEntries_iff {fields : List FieldDef} {members : Record} :
    shapes.holdsEntries fields members = true ↔
      ∀ m ∈ members, ∀ d ∈ fields, d.name = m.1 → shapes.holds d.type m.2 = true := by
  induction members with
  | nil => exact ⟨fun _ => nofun, fun _ => rfl⟩
  | cons m members ih =>
    obtain ⟨name, value⟩ := m
    rw [holdsEntries, Bool.and_eq_true, ih, List.forall_mem_cons, List.all_eq_true]
    simp only [Bool.or_eq_true, bne_iff_ne, ne_eq, ← imp_iff_not_or]

/-- Records of a shape are what a type of the shape says: all of them where it is a list, and the first
one, or null if there is none, where it is single. -/
theorem holds_records {items : List Value}
    (hitems : ∀ item ∈ items, item.isRecord = true ∧ shapes.holds type.element item = true) :
    shapes.holds type (if type.isList then .list items else items.headD .null) = true := by
  split
  · rename_i hlist
    rw [holds, hlist, Bool.true_and, Bool.or_eq_true]
    exact Or.inr (holdsItems_iff.mpr hitems)
  · rename_i hlist
    have hsingle : type.isList = false := Bool.eq_false_iff.mpr hlist
    cases items with
    | nil =>
      rw [List.headD_nil, holds, hsingle]
      simp
    | cons first rest =>
      rw [List.headD_cons, ← FieldType.element_of_not_isList hsingle]
      exact (hitems first List.mem_cons_self).2

/-- A record of one entry for each shown field, which hold what the types of the fields say. -/
theorem holds_record {name : String} {shape : Shape} (hname : type.shapeName? = some name)
    (hsingle : type.isList = false) (hshape : shapes.get? name = some shape)
    {members : List (String × Value)} (hnames : members.map Prod.fst =
      shape.shownFields.map FieldDef.name) (hdistinct : (members.map Prod.fst).Nodup)
    (hentries : ∀ m ∈ members, ∀ d ∈ shape.shownFields, d.name = m.1 →
      shapes.holds d.type m.2 = true) :
    shapes.holds type (.record (Record.ofMembers members)) = true := by
  rw [Record.ofMembers_of_nodup hdistinct, holds, hname, hsingle]
  have hfits : Record.fits shape.shownFields members = true := by
    have hown : Record.names members = shape.shownFields.map FieldDef.name := hnames
    rw [Record.fits, hown, Bool.and_eq_true, Bool.and_eq_true, List.all_eq_true, List.all_eq_true]
    refine ⟨⟨decide_eq_true (hnames ▸ hdistinct), ?_⟩, ?_⟩
    · intro other hother
      obtain ⟨d, hd, rfl⟩ := List.mem_map.mp hother
      exact List.any_eq_true.mpr ⟨d, hd, beq_self_eq_true _⟩
    · intro d hd
      exact List.contains_iff_mem.mpr (List.mem_map_of_mem hd)
  rw [Option.bind_some, hshape, Option.any_some, hfits, holdsEntries_iff.mpr hentries]
  simp

end Holds

end Shapes

namespace FieldTree

mutual

/-- No list of a shape that is shown is embedded in the table around it. -/
def ListsBound (r : Resolver) : FieldTree → Prop
  | .node field kids =>
    (field.isList = true → field.isScalar = false → field.cyclic = false →
      field.directives.via.isSome = true ∨ r.shapeTable field ≠ .ok none) ∧ ListsBoundAll r kids

def ListsBoundAll (r : Resolver) : List FieldTree → Prop
  | [] => True
  | t :: ts => (t.label.directives.exclude = false → ListsBound r t) ∧ ListsBoundAll r ts

end

mutual

def decidableListsBound (r : Resolver) : (t : FieldTree) → Decidable (ListsBound r t)
  | .node field kids =>
    have : Decidable (r.shapeTable field ≠ .ok none) :=
      match r.shapeTable field with
      | .ok none => .isFalse fun h => h rfl
      | .ok (some _) => .isTrue nofun
      | .error _ => .isTrue nofun
    have := decidableListsBoundAll r kids
    inferInstanceAs (Decidable ((_ → _ → _ → _ ∨ _) ∧ _))

def decidableListsBoundAll (r : Resolver) : (ts : List FieldTree) → Decidable (ListsBoundAll r ts)
  | [] => inferInstanceAs (Decidable True)
  | t :: ts =>
    have := decidableListsBound r t
    have := decidableListsBoundAll r ts
    inferInstanceAs (Decidable ((_ → _) ∧ _))

end

instance (r : Resolver) : DecidablePred (ListsBoundAll r) := decidableListsBoundAll r

/-- The shown fields of a shape have the names and types that it declares. -/
theorem shown_declared {fields : List FieldDef} {kids : List FieldTree}
    (h : List.Forall₂ (fun d t => t.label.DeclaredBy d) fields kids) :
    (fields.filter fun d => !d.directives.exclude).map (fun d => (d.name, d.type)) =
      (kids.filter fun t => !t.label.directives.exclude).map fun t => (t.label.name, t.label.type) := by
  induction h with
  | nil => rfl
  | cons hd _ ih =>
    rw [List.filter_cons, List.filter_cons, hd.directives]
    split
    · rw [List.map_cons, List.map_cons, ih, hd.name, hd.type]
    · exact ih

end FieldTree

namespace Entity

section Shown

variable {shapes : Shapes} {r : Resolver} {s : Schema}

/-- The members of a shape's fields make a record of the shape. -/
theorem holds_members {type : FieldType} {name : String} {shape : Shape}
    (hname : type.shapeName? = some name) (hsingle : type.isList = false)
    (hshape : shapes.get? name = some shape) {kids : List FieldTree}
    (hdeclared : List.Forall₂ (fun d t => t.label.DeclaredBy d) shape.fields kids)
    (hdistinct : (FieldTree.shownNames kids).Nodup) {levels : LevelTree} {e : Entity} {base : Path}
    (hheld : ∀ m ∈ members levels e base kids, ∃ t ∈ kids, t.label.directives.exclude = false ∧
      m.1 = t.label.name ∧ shapes.holds t.label.type m.2 = true) :
    shapes.holds type (.record (Record.ofMembers (members levels e base kids))) = true := by
  have hshown := FieldTree.shown_declared hdeclared
  have hnames : shape.shownFields.map FieldDef.name = FieldTree.shownNames kids := by
    have hfirst := congrArg (List.map Prod.fst) hshown
    rw [List.map_map, List.map_map] at hfirst
    rw [FieldTree.shownNames_eq]
    exact hfirst
  refine Shapes.holds_record hname hsingle hshape ?_ ?_ ?_
  · rw [names_members, hnames]
  · rw [names_members]
    exact hdistinct
  · intro m hm d hd hdm
    obtain ⟨t, ht, hexclude, hmt, hholds⟩ := hheld m hm
    have hpair : (t.label.name, t.label.type) ∈
        shape.shownFields.map fun d => (d.name, d.type) := by
      rw [Shape.shownFields, hshown]
      refine List.mem_map.mpr ⟨t, List.mem_filter.mpr ⟨ht, ?_⟩, rfl⟩
      rw [hexclude]
      rfl
    obtain ⟨d', hd', hsame⟩ := List.mem_map.mp hpair
    rw [Prod.mk.injEq] at hsame
    have heq : d = d' := by
      refine List.inj_on_of_nodup_map (hnames.symm ▸ hdistinct) hd hd' ?_
      rw [hdm, hmt, hsame.1]
    rw [heq, hsame.2]
    exact hholds

mutual

/-- What a field shows holds what its type says. -/
theorem shown_holds : ∀ (t : FieldTree) {levels : LevelTree} {owner place : Relation}
    {whole trees : List RelationTree} {base : Path} (e : Entity),
    LevelTree.At s levels owner whole base place trees → Hosted r place trees t →
    t.Rooted (place.path.join t.label.name) → t.NamesApart → t.ListsBound r → t.Unfolds shapes →
    t.label.directives.exclude = false →
      shapes.holds t.label.type (shown levels e base t) = true
  | .node field kids, levels, owner, place, whole, trees, base, e, hat, hhosted, hrooted, hnames,
      hbound, hunfolds, hexclude => by
    rw [shown]
    show shapes.holds field.type _ = true
    by_cases hcyclic : field.cyclic = true
    · rw [if_pos hcyclic]
      exact Shapes.holds_records fun _ hitem => absurd hitem List.not_mem_nil
    rw [if_neg hcyclic]
    by_cases hscalar : field.isScalar = true
    · rw [if_pos hscalar]
      exact Shapes.holds_of_isScalar hscalar _
    rw [if_neg hscalar]
    have hshape : field.type.isScalar = false := Bool.eq_false_iff.mpr hscalar
    obtain ⟨name, hname⟩ := FieldType.exists_shapeName hshape
    obtain ⟨shape, hget, hdeclared⟩ := hunfolds.1 name hname (Bool.eq_false_iff.mpr hcyclic)
    obtain ⟨inner, below, ⟨t, ht, hshows⟩, hpath, hembedded, hkids⟩ :=
      (hhosted hexclude).2 hshape (Bool.eq_false_iff.mpr hcyclic)
    have hstep : inner.path = place.path.join field.name := hpath.trans hrooted.1
    have hbelow : FieldTree.RootedAll inner.path kids := hstep ▸ hrooted.2
    have helement : field.type.element.shapeName? = some name :=
      field.type.shapeName?_element.trans hname
    cases hplace : inner.isEmbedded with
    | false =>
      obtain ⟨child, hchild, hinner⟩ := hat.bound ht hshows hstep hplace
      rw [hchild]
      simp only
      refine Shapes.holds_records fun item hitem => ?_
      obtain ⟨other, _, rfl⟩ := List.mem_map.mp hitem
      exact ⟨rfl, holds_members helement field.type.isList_element hget hdeclared hnames.1
        (members_hold kids other hinner hkids hbelow hnames.2 hbound.2 hunfolds.2)⟩
    | true =>
      obtain ⟨hchild, hinner⟩ := hat.embedded ht hshows hstep hplace
      obtain ⟨hvia, htable⟩ := hembedded hplace
      have hsingle : field.type.isList = false := by
        rw [Bool.eq_false_iff]
        intro hlist
        rcases hbound.1 hlist hshape (Bool.eq_false_iff.mpr hcyclic) with hsome | htabled
        · rw [hvia] at hsome
          cases hsome
        · exact htabled htable
      rw [hchild]
      simp only
      split
      · rw [Shapes.holds, hsingle]
        simp
      · rw [← FieldType.element_of_not_isList hsingle]
        exact holds_members helement field.type.isList_element hget hdeclared hnames.1
          (members_hold kids e hinner hkids hbelow hnames.2 hbound.2 hunfolds.2)

theorem members_hold : ∀ (ts : List FieldTree) {levels : LevelTree} {owner place : Relation}
    {whole trees : List RelationTree} {base : Path} (e : Entity),
    LevelTree.At s levels owner whole base place trees → HostedAll r place trees ts →
    FieldTree.RootedAll place.path ts → FieldTree.NamesApartAll ts → FieldTree.ListsBoundAll r ts →
    FieldTree.UnfoldsAll shapes ts →
      ∀ m ∈ members levels e base ts, ∃ t ∈ ts, t.label.directives.exclude = false ∧
        m.1 = t.label.name ∧ shapes.holds t.label.type m.2 = true
  | [], _, _, _, _, _, _, _, _, _, _, _, _, _ => nofun
  | t :: ts, levels, owner, place, whole, trees, base, e, hat, ⟨hhosted, hothers⟩, ⟨hrooted, hrest⟩,
      ⟨hnames, hnamesRest⟩, ⟨hbound, hboundRest⟩, ⟨hunfolds, hunfoldsRest⟩ => by
    have htail := members_hold ts e hat hothers hrest hnamesRest hboundRest hunfoldsRest
    intro m hm
    rw [members] at hm
    split at hm
    · obtain ⟨other, hother, hheld⟩ := htail m hm
      exact ⟨other, List.mem_cons_of_mem _ hother, hheld⟩
    · rename_i hshown
      have hexclude := Bool.eq_false_iff.mpr hshown
      rcases List.mem_cons.mp hm with rfl | hm
      · exact ⟨t, List.mem_cons_self, hexclude, rfl, shown_holds t e hat hhosted hrooted
          (hnames hexclude) (hbound hexclude) hunfolds hexclude⟩
      · obtain ⟨other, hother, hheld⟩ := htail m hm
        exact ⟨other, List.mem_cons_of_mem _ hother, hheld⟩

end

end Shown

end Entity

/-- A result with rows is one record of a shape or a list of them. -/
theorem SpecDeclaration.rowResult?_cases {declaration : SpecDeclaration} {kind : Output}
    {type : FieldType} (h : declaration.rowResult? = some (kind, type)) :
    ∃ name, kind = .one ∧ type = .shape name ∨ kind = .many ∧ type = .list (.shape name) := by
  obtain ⟨step, hfold, hstep⟩ :
      ∃ step : Option (Output × FieldType) → Returns → Option (Output × FieldType),
        declaration.rowResult? = declaration.returns.foldl step none ∧
          ∀ found r, step found r = found ∨ ∃ name,
            step found r = some (.one, .shape name) ∨
              step found r = some (.many, .list (.shape name)) := by
    refine ⟨_, rfl, ?_⟩
    intro found r
    cases r with
    | one shape => exact Or.inr ⟨shape, Or.inl rfl⟩
    | many shape => exact Or.inr ⟨shape, Or.inr rfl⟩
    | count | affected => exact Or.inl rfl
  have hrows : ∀ (returns : List Returns) (found : Option (Output × FieldType)),
      (∀ result, found = some result → ∃ name, result = (.one, .shape name) ∨
        result = (.many, .list (.shape name))) →
      ∀ result, returns.foldl step found = some result → ∃ name, result = (.one, .shape name) ∨
        result = (.many, .list (.shape name)) := by
    intro returns
    induction returns with
    | nil => exact fun _ hfound => hfound
    | cons first rest ih =>
      intro found hfound
      rw [List.foldl_cons]
      apply ih
      intro result hresult
      rcases hstep found first with hsame | ⟨name, hone | hmany⟩
      · exact hfound result (hsame ▸ hresult)
      · rw [hone] at hresult
        exact ⟨name, Or.inl (Option.some.inj hresult).symm⟩
      · rw [hmany] at hresult
        exact ⟨name, Or.inr (Option.some.inj hresult).symm⟩
  have hnothing : ∀ result : Output × FieldType, none = some result →
      ∃ name, result = (.one, .shape name) ∨ result = (.many, .list (.shape name)) := by
    intro result hresult
    cases hresult
  rw [hfold] at h
  obtain ⟨name, hone | hmany⟩ := hrows declaration.returns none hnothing _ h
  · exact ⟨name, Or.inl ⟨congrArg Prod.fst hone, congrArg Prod.snd hone⟩⟩
  · exact ⟨name, Or.inr ⟨congrArg Prod.fst hmany, congrArg Prod.snd hmany⟩⟩

/-- Results have the declared type. What a compiled select or returning write materializes is null or a
record of the shape that it returns, or else a list of such records. No two shown fields of a shape may
have one name, no shown list of a shape may be embedded in the table around it, and no two levels may be
reached by one way, or one by that of an embedded shape beside it. They are not, where the paths that
filters join along are spelled like the output. -/
theorem Compiled.materialize_holds {declarations : List TableDeclaration} {schema : Schema}
    {setup : CompilerSetup} {c : Compiler} {declaration : SpecDeclaration} {shapes : Shapes}
    {spec : QuerySpec} {compiled : Compiled} (hschema : Schema.build declarations = .ok schema)
    (hsetup : setup.schema = some schema) (hbuild : setup.build = .ok c)
    (hspec : declaration.build shapes = .ok spec) (hcompile : c.compile spec = .ok compiled)
    (hkind : spec.outputKind = .one ∨ spec.outputKind = .many) :
    ∃ output type relations, spec.output = some output ∧
      declaration.rowResult? = some (spec.outputKind, type) ∧
      compiled.plan.relations = some relations ∧
      (output.NamesApart → spec.JoinsSpelled output → LevelTree.Legible relations.tree) ∧
      (output.NamesApart → FieldTree.ListsBoundAll c.resolver output.children →
        LevelTree.Legible relations.tree →
          ∀ rows value, compiled.materialize rows = .ok value → shapes.holds type value = true) := by
  obtain ⟨p, output, _, _, relations, hresolver, htable, harguments, houtput, hrooted, _, hrelations, _,
    hreads, hmaterializer⟩ := Compiler.returned_of_compile hspec hcompile hkind
  obtain ⟨hresult, hcyclic, hunfolds⟩ := SpecDeclaration.output_unfolds hspec houtput
  refine ⟨output, output.label.type, relations, houtput, hresult, hrelations, fun hnames hjoins =>
    LevelTree.legible_of_pathsApart (hreads.spelledOut hrooted hnames harguments hjoins).pathsApart, ?_⟩
  intro hnames hbound hlegible rows value hvalue
  have hbuilt : p.schema = schema := by
    rw [Planner.schema, hresolver]
    exact CompilerSetup.schema_of_build hsetup hbuild
  have hcompiler : c.schema = p.schema := by
    rw [Planner.schema, hresolver]
    rfl
  have hhosted := hreads.hosted (hbuilt ▸ Schema.build_sound hschema)
    (hbuilt ▸ Schema.build_keyed hschema) (hcompiler ▸ htable) hnames
  have hnested := hreads.nested hrooted
  have hat := LevelTree.at_root c.schema hnested.root hnested.tree hlegible
  obtain ⟨field, kids⟩ := output
  obtain ⟨name, htype⟩ := SpecDeclaration.rowResult?_cases hresult
  have hname : field.type.shapeName? = some name := by
    rcases htype with ⟨_, hone⟩ | ⟨_, hmany⟩
    · exact congrArg FieldType.shapeName? hone
    · exact congrArg FieldType.shapeName? hmany
  obtain ⟨shape, hget, hdeclared⟩ := hunfolds.1 name hname hcyclic
  have hrecord : ∀ e : Entity, shapes.holds field.type.element
      (Entity.toValue (LevelTree.ofRelations c.schema relations) (.node field kids) e) = true := by
    intro e
    refine Entity.holds_members (field.type.shapeName?_element.trans hname) field.type.isList_element
      hget hdeclared hnames.1 ?_
    exact Entity.members_hold kids e hat (hresolver ▸ hhosted) (hreads.root_path.symm ▸ hrooted.2)
      hnames.2 hbound hunfolds.2
  have hrecords : ∀ shown, Materializer.records (LevelTree.ofRelations c.schema relations)
      (.node field kids) rows = .ok shown →
        ∀ item ∈ shown, item.isRecord = true ∧ shapes.holds field.type.element item = true := by
    intro shown hshown
    unfold Materializer.records at hshown
    split at hshown
    · cases hshown
    · cases hshown
      intro item hitem
      obtain ⟨e, _, rfl⟩ := List.mem_map.mp hitem
      exact ⟨rfl, hrecord e⟩
  rw [materialize, hmaterializer] at hvalue
  rcases htype with ⟨hone, hsingle⟩ | ⟨hmany, hlist⟩
  · have hsingle : field.type = .shape name := hsingle
    rw [hone] at hvalue
    obtain ⟨shown, hshown, rfl⟩ := except_map_ok.mp hvalue
    show shapes.holds field.type (shown.headD .null) = true
    have hholds := Shapes.holds_records (hrecords shown hshown)
    rwa [if_neg (by rw [hsingle]; exact Bool.false_ne_true)] at hholds
  · have hlist : field.type = .list (.shape name) := hlist
    rw [hmany] at hvalue
    obtain ⟨shown, hshown, rfl⟩ := except_map_ok.mp hvalue
    show shapes.holds field.type (.list shown) = true
    have hholds := Shapes.holds_records (hrecords shown hshown)
    rwa [if_pos (by rw [hlist]; rfl)] at hholds

/-- A person with a pet and no car. -/
def petOnlyRows : Rows where
  columns := ["Id", "Pets.Id", "Own.All.Code"]
  rows := [[.i32 1, .i32 10, .null]]
  widths := by simp

/-- The person with the list of the pet, and an empty list of cars. -/
def petOnlyValue : Value :=
  .list [.record [("Id", .i32 1), ("Pets", .list [.record [("Id", .i32 10)]]),
    ("Own", .record [("All", .list [])])]]

/-- The fields of the output are apart, its lists have tables, and the person is materialized. -/
def petOnlyTest (c : Compiler) (spec : QuerySpec) (compiled : Compiled) : Bool :=
  decide (spec.outputKind = .many) && spec.output.any fun output =>
    decide (output.NamesApart ∧ FieldTree.ListsBoundAll c.resolver output.children ∧
      spec.JoinsSpelled output ∧
      (compiled.materialize petOnlyRows).toOption = some petOnlyValue)

theorem petOnlyTest_cases {c : Compiler} {spec : QuerySpec} {compiled : Compiled}
    (h : petOnlyTest c spec compiled = true) : spec.outputKind = .many ∧
      ∃ output, spec.output = some output ∧ output.NamesApart ∧
        FieldTree.ListsBoundAll c.resolver output.children ∧ spec.JoinsSpelled output ∧
        (compiled.materialize petOnlyRows).toOption = some petOnlyValue := by
  rw [petOnlyTest, Bool.and_eq_true, decide_eq_true_eq, Option.any_eq_true] at h
  obtain ⟨hmany, output, houtput, htest⟩ := h
  exact ⟨hmany, output, houtput, of_decide_eq_true htest⟩

/-- The lists of people, pets and cars are lists. -/
theorem Compiled.materialize_petOnly :
    ∃ schema spec compiled, Schema.build ownedDeclarations = .ok schema ∧
      ownedList.build (ownedShapes "Pets") = .ok spec ∧
      (⟨schema, default, .exact⟩ : Compiler).compile spec = .ok compiled ∧
      compiled.materialize petOnlyRows = .ok petOnlyValue ∧
      (ownedShapes "Pets").holds (.list (.shape "Person")) petOnlyValue = true := by
  obtain ⟨schema, spec, compiled, hschema, hspec, hcompile, htest⟩ :
      ∃ schema spec compiled, Schema.build ownedDeclarations = .ok schema ∧
        ownedList.build (ownedShapes "Pets") = .ok spec ∧
        (⟨schema, default, .exact⟩ : Compiler).compile spec = .ok compiled ∧
        petOnlyTest ⟨schema, default, .exact⟩ spec compiled = true :=
    Compiler.exists_compiled (by decide +kernel)
  obtain ⟨hmany, output, houtput, hnames, hbound, hjoins, hvalue⟩ := petOnlyTest_cases htest
  have hbuild : (CompilerSetup.mk (some schema) default (some .exact)).build =
      .ok ⟨schema, default, .exact⟩ := rfl
  obtain ⟨output', type, relations, houtput', hresult, _, hlegible, hholds⟩ :=
    materialize_holds hschema rfl hbuild hspec hcompile (Or.inr hmany)
  cases houtput.symm.trans houtput'
  rw [hmany] at hresult
  cases hresult
  have hmaterialize := ok_of_toOption hvalue
  exact ⟨schema, spec, compiled, hschema, hspec, hcompile, hmaterialize,
    hholds hnames hbound (hlegible hnames hjoins) _ _ hmaterialize⟩

/-- The embedded shape of a person's tags is told apart by the number of the person. -/
def taggedShapes : Shapes := .ofList [
  ⟨"Person", none, [⟨"Id", .i32, false, default⟩, ⟨"Tags", .list (.shape "Tag"), false, default⟩]⟩,
  ⟨"Tag", none, [⟨"Id", .i32, false, default⟩]⟩]

/-- A compiled select of people makes of these rows a value that is no list of people. -/
def Misshapes (shapes : Shapes) (declaration : SpecDeclaration) (rows : Rows) (value : Value) : Prop :=
  ∃ schema spec compiled, Schema.build toyDeclarations = .ok schema ∧
    declaration.build shapes = .ok spec ∧
    (⟨schema, default, .exact⟩ : Compiler).compile spec = .ok compiled ∧
    declaration.rowResult? = some (spec.outputKind, .list (.shape "Person")) ∧
    compiled.materialize rows = .ok value ∧
    shapes.holds (.list (.shape "Person")) value = false

/-- What rows are materialized into, and that it is no list of people. -/
def misshapesTest (shapes : Shapes) (declaration : SpecDeclaration) (rows : Rows) (value : Value)
    (_ : Compiler) (spec : QuerySpec) (compiled : Compiled) : Bool :=
  decide (declaration.rowResult? = some (spec.outputKind, .list (.shape "Person")) ∧
    (compiled.materialize rows).toOption = some value ∧
    shapes.holds (.list (.shape "Person")) value = false)

theorem misshapes_of_test {shapes : Shapes} {declaration : SpecDeclaration} {rows : Rows} {value : Value}
    (h : ∃ schema spec compiled, Schema.build toyDeclarations = .ok schema ∧
      declaration.build shapes = .ok spec ∧
      (⟨schema, default, .exact⟩ : Compiler).compile spec = .ok compiled ∧
      misshapesTest shapes declaration rows value ⟨schema, default, .exact⟩ spec compiled = true) :
    Misshapes shapes declaration rows value := by
  obtain ⟨schema, spec, compiled, hschema, hspec, hcompile, htest⟩ := h
  obtain ⟨hresult, hvalue, hholds⟩ := of_decide_eq_true htest
  exact ⟨schema, spec, compiled, hschema, hspec, hcompile, hresult, ok_of_toOption hvalue, hholds⟩

/-- Results do not have the declared type where a list of an embedded shape is shown as one record,
where fields that have one name share an entry, and where the level that a filter joins takes the
place of an embedded shape. -/
theorem Compiled.materialize_misshapen :
    Misshapes taggedShapes ownedList ⟨["Id", "Tags.Id"], [[.i32 1, .i32 1]], by simp⟩
      (.list [.record [("Id", .i32 1), ("Tags", .record [("Id", .i32 1)])]]) ∧
    Misshapes namesakeShapes ownedList ⟨["Pet", "Id", "Pet.Id"], [[.i32 1, .i32 1, .i32 10]], by simp⟩
      (.list [.record [("Pet", .i32 1)]]) ∧
    Misshapes coveredShapes byToy
      ⟨["Id", "pet.Id", "pet.Pet.Toy.All.Id", "Pet.Toy.Id"], [[.i32 1, .i32 10, .i32 20, .i32 30]],
        by simp⟩
      (.list [.record [("Id", .i32 1), ("pet", .list [.record [("Id", .i32 10), ("Pet",
        .record [("Toy", .record [("All", .null)])])]])]]) := by
  refine ⟨misshapes_of_test ?_, misshapes_of_test ?_, misshapes_of_test ?_⟩
  · exact Compiler.exists_compiled (by decide +kernel)
  · exact Compiler.exists_compiled (by decide +kernel)
  · exact Compiler.exists_compiled (by decide +kernel)

end ShapeSql
