import ShapeSql.Proofs.Compiler
import ShapeSql.Proofs.Graph.Display
import ShapeSql.Proofs.Graph.Materialized

namespace ShapeSql

namespace LevelTree

/-- The entity stands for the member, with the collections nested in it. -/
structure Recovers (levels : LevelTree) (m : Member) (e : Entity) : Prop where
  cells : m.cells.length = levels.label.columns.length
  values : e.values = levels.label.record m.cells
  fits : FitsAll levels.children m.nested
  nested : StandsBelow levels.children m.nested e.nested

theorem recovers_of_stands {levels : LevelTree} {forest : Forest} {entities : Entities}
    (hfits : levels.Fits forest) (h : levels.Stands forest entities) :
    List.Forall₂ levels.Recovers forest entities := by
  obtain ⟨level, kids⟩ := levels
  refine ((List.forall₂_and_left forest entities).mpr ⟨hfits.2, h⟩).imp ?_
  rintro m e ⟨⟨hcells, _, hkids⟩, hvalues, hnested⟩
  exact ⟨hcells, hvalues, hkids, hnested⟩

/-- Collections are found by their ways, among the members and among the entities. -/
theorem recovers_along (way : Path) {below : LevelTree} : ∀ (ts : List LevelTree) {forests : List Forest}
    {nested : Nested}, FitsAll ts forests → StandsBelow ts forests nested →
      (ts.map fun t => t.label.way).Nodup → ts.find? (fun t => t.label.relative == way) = some below →
        ∃ forest, (below, forest) ∈ ts.zip forests ∧
          List.Forall₂ below.Recovers forest (Nested.along nested way.display)
  | t :: ts, forest :: others, (name, entities) :: rest, ⟨hfits, hothers⟩, ⟨hname, hfirst, hrest⟩,
      hdistinct, hfound => by
    rw [List.map_cons, List.nodup_cons] at hdistinct
    rw [List.zip_cons_cons, Nested.along, List.find?_cons]
    rcases List.find?_cons_eq_some.mp hfound with ⟨hway, rfl⟩ | ⟨_, hfound⟩
    · have hsame : name = way.display := by
        rw [hname, Level.way, beq_iff_eq.mp hway]
      rw [hsame, beq_self_eq_true]
      exact ⟨forest, List.mem_cons_self, recovers_of_stands hfits hfirst⟩
    · obtain ⟨found, hmem, hrecovers⟩ := recovers_along way ts hothers hrest hdistinct.2 hfound
      have hother : (name == way.display) = false := by
        apply beq_false_of_ne
        intro heq
        apply hdistinct.1
        have hway := List.find?_some hfound
        rw [← hname, heq, ← beq_iff_eq.mp hway]
        exact List.mem_map.mpr ⟨below, List.mem_of_find?_eq_some hfound, rfl⟩
      rw [hother]
      exact ⟨found, List.mem_cons_of_mem _ hmem, hrecovers⟩

/-- The collection that a way leads to from a member, and the entities along it. -/
theorem Recovers.along {levels below : LevelTree} (hclear : levels.Clear) {m : Member} {e : Entity}
    (h : levels.Recovers m e) {way : Path} (hchild : levels.child? way = some below) :
    below.Clear ∧ below.label.relative = way ∧ ∃ forest, (below, forest) ∈ levels.children.zip m.nested ∧
      List.Forall₂ below.Recovers forest (Nested.along e.nested way.display) := by
  obtain ⟨level, kids⟩ := levels
  have hway := List.find?_some hchild
  refine ⟨hclear.child (List.mem_of_find?_eq_some hchild), beq_iff_eq.mp hway, ?_⟩
  exact recovers_along way kids h.fits h.nested hclear.apart.1 hchild

end LevelTree

/-- What is found under the name of a column is the cell of its result column. -/
theorem Level.mem_cells {level : Level} (h : level.Sound) {cells : List Value}
    (hlength : cells.length = level.columns.length) {c : LevelColumn} (hc : c ∈ level.columns) :
    (c.source, (Record.get? (level.record cells) c.name).getD .null) ∈
      (level.columns.map LevelColumn.source).zip cells := by
  obtain ⟨index, hindex, rfl⟩ := List.mem_iff_getElem.mp hc
  have hcell : index < cells.length := hlength ▸ hindex
  have hnames : (level.record cells).map Prod.fst = level.columns.map LevelColumn.name :=
    List.map_fst_zip (by rw [List.length_map, hlength])
  have hmem : (level.columns[index].name, cells[index]) ∈ level.record cells := by
    refine List.mem_iff_getElem.mpr ⟨index, ?_, ?_⟩
    · rw [Level.record, List.length_zip, List.length_map, hlength, Nat.min_self]
      exact hindex
    · simp only [Level.record, List.getElem_zip, List.getElem_map]
  have hfound := find?_of_nodup_map (hnames.symm ▸ h.names) hmem
  rw [Record.get?, findNamed, hfound]
  refine List.mem_iff_getElem.mpr ⟨index, ?_, ?_⟩
  · rw [List.length_zip, List.length_map, hlength, Nat.min_self]
    exact hindex
  · simp only [List.getElem_zip, List.getElem_map]
    rfl

/-- Without values, each entry of a record is null. -/
theorem Record.eq_nulls {entries : Record} (h : Record.isAllNull entries = true) :
    entries = (entries.map Prod.fst).map fun name => (name, .null) := by
  induction entries with
  | nil => rfl
  | cons entry entries ih =>
    obtain ⟨name, value⟩ := entry
    rw [Record.isAllNull, List.all_cons, Bool.and_eq_true] at h
    rw [List.map_cons, List.map_cons, ← ih h.2]
    cases value with
    | null => rfl
    | _ => cases h.1

namespace Entity

theorem names_members (levels : LevelTree) (e : Entity) (base : Path) (ts : List FieldTree) :
    (members levels e base ts).map Prod.fst = FieldTree.shownNames ts := by
  induction ts with
  | nil => rfl
  | cons t ts ih =>
    rw [members, FieldTree.shownNames]
    split
    · exact ih
    · rw [List.map_cons, ih]

/-- The entities of a collection are shown as its members are. -/
theorem shownAs_of_recovers {R : Member → Entity → Prop} {shows : Member → Value → Prop}
    {f : Entity → Value} (hshows : ∀ m e, R m e → shows m (f e)) {forest : Forest} {entities : Entities}
    (h : List.Forall₂ R forest entities) (isList : Bool) :
    forest.ShownAs shows isList
      (if isList then .list (entities.map f) else (entities.map f).headD .null) := by
  cases isList with
  | true =>
    refine ⟨_, rfl, ?_⟩
    rw [List.forall₂_map_right_iff]
    exact h.imp hshows
  | false =>
    cases h with
    | nil => rfl
    | cons hfirst _ => exact hshows _ _ hfirst

variable {r : Resolver}

mutual

/-- An entity shows what the member does that it stands for. -/
theorem shown_displays : ∀ (t : FieldTree) {levels : LevelTree} {owner place : Relation}
    {whole trees : List RelationTree} {base : Path} {m : Member} {e : Entity},
    LevelTree.At r.schema levels owner whole base place trees → levels.Clear → levels.Recovers m e →
    Hosted r place trees t → t.Rooted (place.path.join t.label.name) → t.NamesApart →
    t.label.directives.exclude = false →
      Displays r ⟨levels, owner.path, place, trees⟩ m t (shown levels e base t)
  | .node field kids, levels, owner, place, whole, trees, base, m, e, hat, hclear, hstands, hhosted,
      hrooted, hnames, hexclude => by
    rw [shown, Displays]
    by_cases hcyclic : field.cyclic = true
    · rw [if_pos hcyclic, if_pos hcyclic]
    rw [if_neg hcyclic, if_neg hcyclic]
    by_cases hscalar : field.isScalar = true
    · rw [if_pos hscalar, if_pos hscalar, hstands.values]
      obtain ⟨column, hcolumn, c, hc, hname, hid⟩ := (hhosted hexclude).1 hscalar
      refine ⟨column, ?_, c, hc, hname, hid, _, ?_, rfl⟩
      · rw [hcolumn]
        rfl
      · rw [← hname]
        exact Level.mem_cells (hclear.sound _ (Tree.label_mem_preorder levels)) hstands.cells
          (hat.column hc)
    rw [if_neg hscalar, if_neg hscalar]
    obtain ⟨inner, below, ⟨t, ht, hshows⟩, hpath, _, hkids⟩ :=
      (hhosted hexclude).2 (Bool.eq_false_iff.mpr hscalar) (Bool.eq_false_iff.mpr hcyclic)
    have hstep : inner.path = place.path.join field.name := hpath.trans hrooted.1
    have hbelow : FieldTree.RootedAll inner.path kids := hstep ▸ hrooted.2
    refine ⟨.node inner below, mem_firstsAll ht hshows.mem_firsts, hpath, ?_⟩
    show if inner.isEmbedded then _ else _
    cases hplace : inner.isEmbedded with
    | true =>
      obtain ⟨hchild, hinner⟩ := hat.embedded ht hshows hstep hplace
      have hdisplays := members_display kids hinner hclear hstands hkids hbelow hnames.2
      rw [if_pos rfl, hchild]
      simp only
      rw [Record.ofMembers_of_nodup (by rw [names_members]; exact hnames.1)]
      split
      · rename_i hnull
        rw [if_pos rfl, ← names_members levels e (base.join field.name), ← Record.eq_nulls hnull]
        exact hdisplays
      · rename_i hsome
        rw [if_neg nofun]
        exact ⟨_, rfl, Bool.eq_false_iff.mpr hsome, hdisplays⟩
    | false =>
      obtain ⟨child, hchild, hinner⟩ := hat.bound ht hshows hstep hplace
      obtain ⟨hdeeper, hway, forest, hmem, hforest⟩ := hstands.along hclear hchild
      rw [if_neg Bool.false_ne_true, hchild]
      refine ⟨(child, forest), hmem, hway.trans (hat.relativeTo hstep).symm, ?_⟩
      refine shownAs_of_recovers (fun member entity hrecovers => ?_) hforest field.isList
      refine ⟨_, rfl, ?_⟩
      rw [Record.ofMembers_of_nodup (by rw [names_members]; exact hnames.1)]
      exact members_display kids hinner hdeeper hrecovers hkids hbelow hnames.2

theorem members_display : ∀ (ts : List FieldTree) {levels : LevelTree} {owner place : Relation}
    {whole trees : List RelationTree} {base : Path} {m : Member} {e : Entity},
    LevelTree.At r.schema levels owner whole base place trees → levels.Clear → levels.Recovers m e →
    HostedAll r place trees ts → FieldTree.RootedAll place.path ts → FieldTree.NamesApartAll ts →
      DisplaysAll r ⟨levels, owner.path, place, trees⟩ m ts (members levels e base ts)
  | [], _, _, _, _, _, _, _, _, _, _, _, _, _, _ => rfl
  | t :: ts, levels, owner, place, whole, trees, base, m, e, hat, hclear, hstands, ⟨hhosted, hothers⟩,
      ⟨hrooted, hrest⟩, ⟨hnames, hnamesRest⟩ => by
    have htail := members_display ts hat hclear hstands hothers hrest hnamesRest
    rw [members]
    split
    · rename_i hhidden
      exact (displaysAll_of_exclude hhidden).mpr htail
    · rename_i hshown
      have hexclude := Bool.eq_false_iff.mpr hshown
      exact (displaysAll_cons hexclude).mpr ⟨_, _, rfl,
        shown_displays t hat hclear hstands hhosted hrooted (hnames hexclude) hexclude, htail⟩

end

end Entity

/-- The rows of a forest materialize into records, the list of which is the one value that shows it. -/
theorem Materializer.records_expanded {r : Resolver} {levels : LevelTree} {place : Relation}
    {trees : List RelationTree} (hclear : levels.Clear)
    (hat : LevelTree.At r.schema levels place trees .root place trees) {output : FieldTree}
    (hhosted : HostedAll r place trees output.children) (hrooted : output.Rooted place.path)
    (hnames : output.NamesApart) {columns : List String}
    (hcolumns : ∀ name ∈ levels.sources, name ∈ columns) {forest : Forest} (hfits : levels.Fits forest) :
    ∃ items, records levels output (levels.expanded columns forest) = .ok items ∧
      ∀ value, forest.ShownAs (Member.ShownBy r ⟨levels, place.path, place, trees⟩ output) true value ↔
        value = .list items := by
  have hpresent : levels.sources.find? (fun name =>
      !(levels.expanded columns forest).columns.contains name) = none := by
    rw [List.find?_eq_none]
    intro name hname
    have hthere : name ∈ (levels.expanded columns forest).columns := hcolumns name hname
    simpa using hthere
  have hentities := LevelTree.recovers_of_stands hfits (LevelTree.entities_expanded levels hclear.sound
    hclear.apart hclear.sources hcolumns hfits)
  obtain ⟨field, kids⟩ := output
  have hmembers : ∀ m e, levels.Recovers m e → Member.ShownBy r ⟨levels, place.path, place, trees⟩
      (.node field kids) m (Entity.toValue levels (.node field kids) e) := by
    intro m e hstands
    refine ⟨_, rfl, ?_⟩
    rw [Record.ofMembers_of_nodup (by rw [Entity.names_members]; exact hnames.1)]
    exact Entity.members_display kids hat hclear hstands hhosted hrooted.2 hnames.2
  have hshown := Entity.shownAs_of_recovers hmembers hentities true
  refine ⟨_, by rw [records, hpresent], fun value => ⟨fun hvalue => ?_, ?_⟩⟩
  · refine hvalue.unique (fun m _ item item' hitem hitem' => ?_) hshown
    obtain ⟨entries, hentries, hall⟩ := hitem
    obtain ⟨entries', hentries', hall'⟩ := hitem'
    rw [← displaysAll_unique kids hat hat rfl rfl hclear hrooted.2 hall hall'] at hentries'
    exact Value.eq_of_record? hentries hentries'
  · rintro rfl
    exact hshown

namespace Planner.ReadsOver

variable {p : Planner} {output : FieldTree} {relations : Relations}

/-- Places with a table are identified by the key of the table. -/
theorem keyNames (h : p.ReadsOver output relations) : ∀ r ∈ relations.all, r.isBound = true →
    (p.schema.table r.table).hasKey = true → r.keyNames p.schema ≠ [] := by
  obtain ⟨before, rfl⟩ : ∃ before : Relations, relations = before.anchorKeys p.schema := by
    obtain ⟨start, hstart, rfl | ⟨_, _, _, joined, _, rfl⟩⟩ := h
    · obtain ⟨_, _, _, _, rfl⟩ := Resolver.resolve_inv hstart
      exact ⟨_, rfl⟩
    · exact ⟨joined, rfl⟩
  intro r hr hbound hkey
  rw [Relations.all, Relations.anchorKeys, Tree.preorder_map] at hr
  obtain ⟨own, _, rfl⟩ := List.mem_map.mp hr
  obtain ⟨htable, _, hkind, _⟩ := Relations.same_anchorKey p.schema own
  exact keyNames_anchorKey ((Relation.isBound_of_kind hkind).symm.trans hbound) (htable ▸ hkey)

/-- The levels of what is returned tell columns and ways apart. -/
theorem clear (h : p.ReadsOver output relations) (hrooted : output.Rooted .root)
    (hkeys : ∀ r ∈ relations.all, r.isBound = true → (p.schema.table r.table).hasKey = true)
    (hnames : (relations.all.flatMap Relation.aliases).Nodup)
    (hways : (LevelTree.ofRelations p.schema relations).Apart) :
    (LevelTree.ofRelations p.schema relations).Clear where
  sound := LevelTree.ofRelations_sound (h.nested hrooted).root (h.nested hrooted).tree
    (fun r hr hbound => h.keyNames r hr hbound (hkeys r hr hbound)) hnames
  apart := hways
  sources := (LevelTree.sources_ofRelations (h.nested hrooted).root).nodup_iff.mpr hnames

end Planner.ReadsOver

/-- People, who own pets and cars. -/
def ownedDeclarations : List TableDeclaration := [
  ⟨"Person", .table, [⟨"Id", .integer 4, false, true, false⟩], []⟩,
  ⟨"Pet", .table, [⟨"Id", .integer 4, false, true, false⟩,
    ⟨"PersonId", .integer 4, false, false, false⟩], [⟨["PersonId"], "Person", ["Id"]⟩]⟩,
  ⟨"Car", .table, [⟨"Code", .integer 4, false, true, false⟩,
    ⟨"PersonId", .integer 4, false, false, false⟩], [⟨["PersonId"], "Person", ["Id"]⟩]⟩]

/-- Pets are a field of the given name, cars the field `All` of an embedded shape. -/
def ownedShapes (pets : String) : Shapes := .ofList [
  ⟨"Person", none, [⟨"Id", .i32, false, default⟩, ⟨pets, .list (.shape "Pet"), false, default⟩,
    ⟨"Own", .shape "Own", false, default⟩]⟩,
  ⟨"Own", none, [⟨"All", .list (.shape "Car"), false, default⟩]⟩,
  ⟨"Pet", none, [⟨"Id", .i32, false, default⟩]⟩,
  ⟨"Car", none, [⟨"Code", .i32, false, default⟩]⟩]

def ownedList : SpecDeclaration where
  operation := .select
  table := some "Person"
  arguments := []
  returns := [.many "Person"]

/-- A person with two pets and two cars. -/
def ownedForest : Forest :=
  [.node [.i32 1] [[.node [.i32 10] [], .node [.i32 11] []], [.node [.i32 20] [], .node [.i32 21] []]]]

def ownedValue : Value :=
  .list [.record [("Id", .i32 1), ("Pets", .list [.record [("Id", .i32 10)], .record [("Id", .i32 11)]]),
    ("Own", .record [("All", .list [.record [("Code", .i32 20)], .record [("Code", .i32 21)]])])]]

/-- The tables have keys, the result columns have names of their own, and the forest fits. -/
def Listed (compiled : Compiled) (query : Sql.Query) (relations : Relations) (forest : Forest) : Prop :=
  (∀ r ∈ relations.all, r.isBound = true → (compiled.schema.table r.table).hasKey = true) ∧
    query.resultNames.Nodup ∧ (LevelTree.ofRelations compiled.schema relations).Fits forest

instance (compiled : Compiled) (query : Sql.Query) (relations : Relations) (forest : Forest) :
    Decidable (Listed compiled query relations forest) :=
  inferInstanceAs (Decidable (_ ∧ _ ∧ _))

/-- The value shows the members of the forest, one record for each. -/
def Shown (c : Compiler) (compiled : Compiled) (relations : Relations) (output : FieldTree)
    (forest : Forest) (value : Value) : Prop :=
  forest.ShownAs (Member.ShownBy c.resolver
    (.ofTree (LevelTree.ofRelations compiled.schema relations) relations.tree) output) true value

instance (c : Compiler) (compiled : Compiled) (relations : Relations) (output : FieldTree)
    (forest : Forest) (value : Value) : Decidable (Shown c compiled relations output forest value) :=
  inferInstanceAs (Decidable (Forest.ShownAs _ _ _ _))

/-- A test of the one query of a compiled select. -/
def ownedTest (test : Compiler → Compiled → Sql.Query → Relations → FieldTree → Bool) (c : Compiler)
    (spec : QuerySpec) (compiled : Compiled) : Bool :=
  decide (spec.operation = .select) && decide (spec.outputKind = .many) &&
  match compiled.plan.batch, compiled.plan.relations, spec.output with
  | [.query query], some relations, some output => test c compiled query relations output
  | _, _, _ => false

theorem ownedTest_cases {test : Compiler → Compiled → Sql.Query → Relations → FieldTree → Bool} {c : Compiler}
    {spec : QuerySpec} {compiled : Compiled} (h : ownedTest test c spec compiled = true) :
    spec.operation = .select ∧ spec.outputKind = .many ∧ ∃ query relations output,
      compiled.plan.batch = [.query query] ∧ compiled.plan.relations = some relations ∧
        spec.output = some output ∧ test c compiled query relations output = true := by
  simp only [ownedTest, Bool.and_eq_true, decide_eq_true_eq] at h
  obtain ⟨⟨hselect, hmany⟩, h⟩ := h
  split at h
  · exact ⟨hselect, hmany, _, _, _, ‹_›, ‹_›, ‹_›, h⟩
  · cases h

/-- People with pets and cars, and the toys of pets. -/
def toyDeclarations : List TableDeclaration := ownedDeclarations ++ [
  ⟨"Toy", .table, [⟨"Id", .integer 4, false, true, false⟩,
    ⟨"PetId", .integer 4, false, false, false⟩], [⟨["PetId"], "Pet", ["Id"]⟩]⟩]

/-- Two fields of people have one name. -/
def namesakeShapes : Shapes := .ofList [
  ⟨"Person", none, [⟨"Pet", .list (.shape "Pet"), false, default⟩,
    ⟨"Pet", .i32, false, { (default : Directives) with column := some "Id" }⟩]⟩,
  ⟨"Pet", none, [⟨"Id", .i32, false, default⟩]⟩]

/-- Below pets, embedded shapes stand where a filter on the toys of a pet puts these. -/
def coveredShapes : Shapes := .ofList [
  ⟨"Person", none, [⟨"Id", .i32, false, default⟩, ⟨"pet", .list (.shape "Pet"), false, default⟩]⟩,
  ⟨"Pet", none, [⟨"Id", .i32, false, default⟩, ⟨"Pet", .shape "Own", false, default⟩]⟩,
  ⟨"Own", none, [⟨"Toy", .shape "Owner", false, default⟩]⟩,
  ⟨"Owner", none, [⟨"All", .list (.shape "Toy"), false, default⟩]⟩,
  ⟨"Toy", none, [⟨"Id", .i32, false, default⟩]⟩]

/-- People by a toy of one of their pets. -/
def byToy : SpecDeclaration where
  operation := .select
  table := some "Person"
  arguments := [⟨"Id", .i32, false, { (default : Directives) with join := some ⟨["Pet", "Toy"]⟩ }⟩]
  returns := [.many "Person"]

/-- The rows of a forest over the levels of a compiled select materialize into this value, which does not
show the forest. -/
def Misshows (declarations : List TableDeclaration) (shapes : Shapes) (declaration : SpecDeclaration)
    (forest : Forest) (value : Value) : Prop :=
  ∃ schema spec compiled query relations output, Schema.build declarations = .ok schema ∧
    declaration.build shapes = .ok spec ∧
    (⟨schema, default, .exact⟩ : Compiler).compile spec = .ok compiled ∧
    spec.operation = .select ∧ spec.outputKind = .many ∧
    compiled.plan.batch = [.query query] ∧ compiled.plan.relations = some relations ∧
    spec.output = some output ∧ Listed compiled query relations forest ∧
    compiled.materialize ((LevelTree.ofRelations compiled.schema relations).expanded
      query.resultNames forest) = .ok value ∧
    ¬Shown ⟨schema, default, .exact⟩ compiled relations output forest value

theorem misshows_of_test {declarations : List TableDeclaration} {shapes : Shapes}
    {declaration : SpecDeclaration} {forest : Forest} {value : Value}
    (h : ∃ schema spec compiled, Schema.build declarations = .ok schema ∧
      declaration.build shapes = .ok spec ∧
      (⟨schema, default, .exact⟩ : Compiler).compile spec = .ok compiled ∧
      ownedTest (fun c compiled query relations output =>
        decide (Listed compiled query relations forest ∧
          (compiled.materialize ((LevelTree.ofRelations compiled.schema relations).expanded
            query.resultNames forest)).toOption = some value ∧
          ¬Shown c compiled relations output forest value)) ⟨schema, default, .exact⟩ spec compiled = true) :
    Misshows declarations shapes declaration forest value := by
  obtain ⟨schema, spec, compiled, hschema, hspec, hcompile, htest⟩ := h
  obtain ⟨hselect, hmany, query, relations, output, hbatch, hrelations, houtput, htest⟩ :=
    ownedTest_cases htest
  obtain ⟨hlisted, hvalue, hshown⟩ := of_decide_eq_true htest
  exact ⟨schema, spec, compiled, query, relations, output, hschema, hspec, hcompile, hselect, hmany,
    hbatch, hrelations, houtput, hlisted, ok_of_toOption hvalue, hshown⟩

end ShapeSql
