import Mathlib.Data.List.Flatten
import ShapeSql.Proofs.Graph.Conforming

/-!
Where materializing reads the fields of an output. A field is read from the cells of a level, under the
way to it; the level takes its cells from the result columns by their names, which print the paths of the
fields. Where the names are plain, no two result columns have one name, so a field is read from the
column that is selected for it, at the place that it stands at.
-/

namespace ShapeSql

open Sql

namespace FieldTree

mutual

/-- The scalar fields that are shown; below a cyclic field nothing is. -/
def shownScalars : FieldTree → List Field
  | .node field kids =>
    if field.cyclic then []
    else if field.isScalar then [field]
    else shownScalarsAll kids

def shownScalarsAll : List FieldTree → List Field
  | [] => []
  | t :: ts =>
    if t.label.directives.exclude then shownScalarsAll ts
    else shownScalars t ++ shownScalarsAll ts

end

end FieldTree

/-- Where a scalar field is read: from the cells of a level, under the way from there to the shape that
the field belongs to. -/
structure Reading where
  levels : LevelTree
  base : Path
  field : Field

namespace Reading

/-- The name of the cell at the level. -/
def name (reading : Reading) : String := (reading.base.join reading.field.name).display

/-- What is read of an entity of the level. -/
def value (reading : Reading) (e : Entity) : Value :=
  e.shown reading.levels reading.base (.node reading.field [])

end Reading

namespace Entity

mutual

/-- The readings that show a field; levels and ways are those of `Entity.shown`. -/
def readings (levels : LevelTree) (base : Path) : FieldTree → List Reading
  | .node field kids =>
    let way := base.join field.name
    if field.cyclic then []
    else if field.isScalar then [⟨levels, base, field⟩]
    else match levels.child? way with
      | some below => readingsAll below .root kids
      | none => readingsAll levels way kids

def readingsAll (levels : LevelTree) (base : Path) : List FieldTree → List Reading
  | [] => []
  | t :: ts =>
    if t.label.directives.exclude then readingsAll levels base ts
    else readings levels base t ++ readingsAll levels base ts

end

mutual

/-- Each scalar field that is shown is read once. -/
theorem map_field_readings : ∀ (t : FieldTree) (levels : LevelTree) (base : Path),
    (readings levels base t).map Reading.field = t.shownScalars
  | .node field kids, levels, base => by
    rw [readings, FieldTree.shownScalars]
    split
    · rfl
    · split
      · rfl
      · split
        · exact map_field_readingsAll kids _ _
        · exact map_field_readingsAll kids _ _

theorem map_field_readingsAll : ∀ (ts : List FieldTree) (levels : LevelTree) (base : Path),
    (readingsAll levels base ts).map Reading.field = FieldTree.shownScalarsAll ts
  | [], _, _ => rfl
  | t :: ts, levels, base => by
    rw [readingsAll, FieldTree.shownScalarsAll]
    split
    · exact map_field_readingsAll ts levels base
    · rw [List.map_append, map_field_readings t, map_field_readingsAll ts]

end

end Entity

/-- The field of a reading stands at a place whose columns are cells of the level. -/
structure Reading.Stands (r : Resolver) (all : List Relation) (reading : Reading) (place : Relation)
    (column : Column) : Prop where
  scalar : reading.field.cyclic = false ∧ reading.field.isScalar = true
  level : ∃ owner whole trees, (owner :: Tree.preorderAll whole).Sublist all ∧
    LevelTree.At r.schema reading.levels owner whole reading.base place trees
  shown : place.isTransparent = false
  path : reading.field.path = place.path.join reading.field.name
  resolved : r.scalarColumn (r.schema.table place.table) reading.field = .ok column
  projected : ∃ c ∈ place.columns, c.name = reading.field.name ∧ c.column = column.id

namespace Entity

variable {r : Resolver} {all : List Relation}

mutual

/-- The field of each reading stands at a place of the level. -/
theorem readings_stand : ∀ (t : FieldTree) {levels : LevelTree} {owner place : Relation}
    {whole trees : List RelationTree} {base : Path},
    LevelTree.At r.schema levels owner whole base place trees →
    (owner :: Tree.preorderAll whole).Sublist all → place.isTransparent = false →
    Hosted r place trees t → t.Rooted (place.path.join t.label.name) →
    t.label.directives.exclude = false →
      ∀ reading ∈ readings levels base t, ∃ place column, reading.Stands r all place column
  | .node field kids, levels, owner, place, whole, trees, base, hat, hall, hshown, hhosted, hrooted,
      hexclude => by
    rw [readings]
    by_cases hcyclic : field.cyclic = true
    · rw [if_pos hcyclic]
      exact List.forall_mem_nil _
    rw [if_neg hcyclic]
    by_cases hscalar : field.isScalar = true
    · rw [if_pos hscalar, List.forall_mem_singleton]
      obtain ⟨column, hcolumn, hprojected⟩ := (hhosted hexclude).1 hscalar
      exact ⟨place, column, ⟨Bool.eq_false_iff.mpr hcyclic, hscalar⟩, ⟨owner, whole, trees, hall, hat⟩,
        hshown, hrooted.1, hcolumn, hprojected⟩
    rw [if_neg hscalar]
    obtain ⟨inner, below, ⟨t, ht, hshows⟩, hpath, _, hkids⟩ :=
      (hhosted hexclude).2 (Bool.eq_false_iff.mpr hscalar) (Bool.eq_false_iff.mpr hcyclic)
    have hstep : inner.path = place.path.join field.name := hpath.trans hrooted.1
    have hbelow : FieldTree.RootedAll inner.path kids := hstep ▸ hrooted.2
    cases hplace : inner.isEmbedded with
    | false =>
      obtain ⟨child, hchild, hinner⟩ := hat.bound ht hshows hstep hplace
      have hdeeper : (inner :: Tree.preorderAll below).Sublist all :=
        ((hat.joins ht hshows).sublist.trans (List.sublist_cons_self _ _)).trans hall
      rw [hchild]
      exact readingsAll_stand kids hinner hdeeper hshows.label hkids hbelow
    | true =>
      obtain ⟨hchild, hinner⟩ := hat.embedded ht hshows hstep hplace
      rw [hchild]
      exact readingsAll_stand kids hinner hall hshows.label hkids hbelow

theorem readingsAll_stand : ∀ (ts : List FieldTree) {levels : LevelTree} {owner place : Relation}
    {whole trees : List RelationTree} {base : Path},
    LevelTree.At r.schema levels owner whole base place trees →
    (owner :: Tree.preorderAll whole).Sublist all → place.isTransparent = false →
    HostedAll r place trees ts → FieldTree.RootedAll place.path ts →
      ∀ reading ∈ readingsAll levels base ts, ∃ place column, reading.Stands r all place column
  | [], _, _, _, _, _, _, _, _, _, _, _ => List.forall_mem_nil _
  | t :: ts, levels, owner, place, whole, trees, base, hat, hall, hshown, ⟨hhosted, hothers⟩,
      ⟨hrooted, hrest⟩ => by
    have htail := readingsAll_stand ts hat hall hshown hothers hrest
    rw [readingsAll]
    split
    · exact htail
    · rename_i hexclude
      exact List.forall_mem_append.mpr
        ⟨readings_stand t hat hall hshown hhosted hrooted (Bool.eq_false_iff.mpr hexclude), htail⟩

end

end Entity

namespace Path

/-- Steps without dots are read back from how they are printed. -/
theorem eq_of_display_eq {p q : Path} (hp : ∀ step ∈ p.steps, Undotted step)
    (hq : ∀ step ∈ q.steps, Undotted step) (hp' : p.steps ≠ []) (hq' : q.steps ≠ [])
    (h : p.display = q.display) : p = q := by
  have hsplit : ∀ path : Path, (∀ step ∈ path.steps, Undotted step) → path.steps ≠ [] →
      path.display.toList.splitOn '.' = path.steps.map String.toList := by
    intro path hpath hsome
    rw [display, String.toList_intercalate]
    refine List.splitOn_intercalate '.' ?_ (mt List.map_eq_nil_iff.mp hsome)
    exact List.forall_mem_map.mpr hpath
  have hsteps : p.steps.map String.toList = q.steps.map String.toList := by
    rw [← hsplit p hp hp', ← hsplit q hq hq', h]
  exact congrArg Path.mk (List.map_injective_iff.mpr (fun _ _ => String.toList_injective) hsteps)

theorem join_ne_nil (p : Path) (step : String) : (p.join step).steps ≠ [] :=
  List.append_ne_nil_of_right_ne_nil _ (List.cons_ne_nil _ _)

end Path

namespace Relation

/-- A result column prints the path that leads to it. -/
theorem columnAlias_display (r : Relation) (c : ProjectedColumn) :
    r.columnAlias c = (r.path.join c.name).display := by
  have hroot : Path.root.steps <+: r.path.steps := List.nil_prefix
  exact r.columnAlias_eq hroot c

end Relation

namespace Relations

variable {s : Schema} {relations : Relations}

theorem flatMap_aliases_places {rs : List Relation}
    (h : ∀ r ∈ rs, r.isTransparent = true → r.columns = []) :
    rs.flatMap Relation.aliases = (places rs).flatMap Relation.aliases := by
  induction rs with
  | nil => rfl
  | cons r rs ih =>
    rw [List.forall_mem_cons] at h
    rw [List.flatMap_cons, ih h.2, places, places, List.filter_cons]
    split
    · rw [List.flatMap_cons]
    · rename_i hpassed
      have hnone : r.aliases = [] := by
        rw [Relation.aliases, h.1 (by simpa using hpassed)]
        rfl
      rw [hnone, List.nil_append]

/-- Places are told apart where they are printed: they have paths of their own, no dots are in these or in
the names of their columns, no other column has the marked name of a key, and levels are found by their
ways. -/
structure ToldApart (s : Schema) (relations : Relations) : Prop where
  paths : ((places relations.all).map Relation.path).Nodup
  undotted : ∀ r ∈ relations.all, (∀ step ∈ r.path.steps, Undotted step) ∧
    ∀ c ∈ r.columns, Undotted c.name
  marked : ∀ r ∈ relations.all, r.isBound = true → MarksKeys s r.table r.columns
  ways : LevelTree.Legible relations.tree

instance (s : Schema) (relations : Relations) : Decidable (relations.ToldApart s) :=
  decidable_of_iff (((places relations.all).map Relation.path).Nodup ∧
      (∀ r ∈ relations.all, (∀ step ∈ r.path.steps, Undotted step) ∧
        ∀ c ∈ r.columns, Undotted c.name) ∧
      (∀ r ∈ relations.all, r.isBound = true → MarksKeys s r.table r.columns) ∧
      LevelTree.Legible relations.tree)
    ⟨fun h => ⟨h.1, h.2.1, h.2.2.1, h.2.2.2⟩, fun h => ⟨h.paths, h.undotted, h.marked, h.ways⟩⟩

theorem Tidy.toldApart {plain : Prop} (hs : s.Sound) (hnamed : s.NamedApart)
    (h : relations.Tidy plain s) (hplain : plain) (hapart : relations.PathsApart) :
    relations.ToldApart s where
  paths := hapart.distinct
  undotted r hr := ⟨(h.all r hr).path hplain, ((h.all r hr).neat hplain).undotted⟩
  marked r hr _ := ((h.all r hr).neat hplain).marksKeys hs hnamed
  ways := LevelTree.legible_of_pathsApart hapart

/-- No two result columns have one name where the places are told apart. -/
theorem aliases_nodup {plain : Prop} (htidy : relations.Tidy plain s) (h : relations.ToldApart s) :
    (relations.all.flatMap Relation.aliases).Nodup := by
  have hsame : ∀ a ∈ relations.all, ∀ b ∈ relations.all, ∀ c ∈ a.columns, ∀ d ∈ b.columns,
      a.columnAlias c = b.columnAlias d → a.path = b.path ∧ c.name = d.name := by
    intro a ha b hb c hc d hd halias
    rw [a.columnAlias_display, b.columnAlias_display] at halias
    have hjoined := Path.eq_of_display_eq
      (undotted_join (h.undotted a ha).1 ((h.undotted a ha).2 c hc))
      (undotted_join (h.undotted b hb).1 ((h.undotted b hb).2 d hd))
      (Path.join_ne_nil _ _) (Path.join_ne_nil _ _) halias
    obtain ⟨hpath, hname⟩ := List.append_inj' (congrArg Path.steps hjoined) rfl
    exact ⟨congrArg Path.mk hpath, List.singleton_inj.mp hname⟩
  rw [flatMap_aliases_places fun r hr => (htidy.all r hr).passed, List.nodup_flatMap]
  constructor
  · intro r hr
    have hr := List.mem_of_mem_filter hr
    have hnames := (htidy.all r hr).distinct (h.marked r hr)
    refine List.Nodup.map_on (fun c hc d hd halias => ?_) (List.Nodup.of_map _ hnames)
    exact List.inj_on_of_nodup_map hnames hc hd (hsame r hr r hr c hc d hd halias).2
  · refine (List.pairwise_map.mp h.paths).imp_of_mem ?_
    intro a b ha hb hpaths
    refine List.disjoint_left.mpr ?_
    intro name hown hother
    obtain ⟨c, hc, rfl⟩ := List.mem_map.mp hown
    obtain ⟨d, hd, halias⟩ := List.mem_map.mp hother
    exact hpaths (hsame a (List.mem_of_mem_filter ha) b (List.mem_of_mem_filter hb) c hc d hd
      halias.symm).1

end Relations

section Cells

/-- What a row has at a level, found by the names of the columns there. -/
theorem Level.get?_values {level : Level} (h : (level.columns.map LevelColumn.name).Nodup)
    {c : LevelColumn} (hc : c ∈ level.columns) (columns : List String) (row : List Value) :
    Record.get? (level.values columns row) c.name = some (Rows.cell columns row c.source) := by
  have hnames : ((level.columns.map fun c => (c.name, Rows.cell columns row c.source)).map
      Prod.fst).Nodup := by
    rw [List.map_map]
    exact h
  have hfound := find?_of_nodup_map hnames (List.mem_map_of_mem hc)
  rw [Level.values, Record.ofMembers_of_nodup hnames, Record.get?, findNamed, hfound]
  rfl

/-- The columns of a level have names of their own, if no result column is read twice. -/
theorem LevelTree.At.names_nodup {s : Schema} {levels : LevelTree} {owner place : Relation}
    {whole trees : List RelationTree} {base : Path} (h : At s levels owner whole base place trees)
    (haliases : ((owner :: Tree.preorderAll whole).flatMap Relation.aliases).Nodup) :
    (levels.label.columns.map LevelColumn.name).Nodup := by
  have hqualified : ∀ c ∈ levels.label.columns, c.source = owner.path.qualify c.name := by
    rw [h.columns]
    refine List.forall_mem_append.mpr ⟨source_columnsOf (Or.inr List.prefix_rfl), ?_⟩
    exact shares_qualified s whole h.nests
  have hsources : (levels.label.columns.map LevelColumn.source).Nodup := by
    rw [List.flatMap_cons] at haliases
    rw [h.columns, List.map_append, map_source_columnsOf]
    have hperm := (sources_shares s whole owner.path).append_left owner.aliases
    exact (hperm.nodup_iff.mpr haliases).sublist ((List.sublist_append_left _ _).append_left _)
  have hmap : levels.label.columns.map LevelColumn.source =
      (levels.label.columns.map LevelColumn.name).map owner.path.qualify := by
    rw [List.map_map]
    exact List.map_congr_left hqualified
  rw [hmap] at hsources
  exact hsources.of_map _

variable {r : Resolver} {all : List Relation} {reading : Reading} {place : Relation} {column : Column}

/-- What is read is the cell of the result column that prints the path of the field. -/
theorem Reading.Stands.value_eq (h : reading.Stands r all place column)
    (haliases : (all.flatMap Relation.aliases).Nodup) {columns : List String} {row : List Value}
    {e : Entity} (he : e.values = reading.levels.label.values columns row) :
    reading.value e = Rows.cell columns row reading.field.path.display := by
  obtain ⟨owner, whole, trees, hall, hat⟩ := h.level
  obtain ⟨c, hc, hname, _⟩ := h.projected
  have hcell := Level.get?_values (hat.names_nodup (haliases.sublist (hall.flatMap _)))
    (hat.column hc) columns row
  rw [place.columnAlias_display, hname, ← h.path] at hcell
  rw [Reading.value, Entity.shown, if_neg (Bool.eq_false_iff.mp h.scalar.1), if_pos h.scalar.2, he,
    hcell, Option.getD_some]

end Cells

/-- The reading finds what the statement selects for the field: the column that the field resolves to, at
the place that the field stands at, under the path of the field. -/
structure Reading.Finds (r : Resolver) (query : Query) (relations : Relations) (reading : Reading)
    (place : Relation) (column : Column) (index : Nat) : Prop where
  shown : place ∈ places relations.all
  path : reading.field.path = place.path.join reading.field.name
  resolved : r.scalarColumn (r.schema.table place.table) reading.field = .ok column
  selected : query.projection[index]? =
    some ⟨.columnOf place.aliasName column.name, some reading.field.path.display⟩
  found : (Rows.ofColumns query.resultNames).columnIndex? reading.field.path.display = some index
  read : ∀ (row : List Value) (e : Entity), row.length = query.resultNames.length →
    e.values = reading.levels.label.values query.resultNames row →
      reading.value e = row.getD index .null

section Found

variable {r : Resolver} {query : Query} {relations : Relations} {reading : Reading} {place : Relation}
  {column : Column}

/-- What is selected at a position has its name there. -/
theorem Relations.resultNames_getElem? {s : Schema}
    (h : query.projection = relations.all.flatMap (Relation.selected s)) {index : Nat}
    {expr : Expr} {name : String} (hselected : query.projection[index]? = some ⟨expr, some name⟩) :
    query.resultNames[index]? = some name := by
  have hnamed : query.projection.map Projected.aliasName = query.resultNames.map some := by
    rw [resultNames_of_selected h, h, List.map_flatMap, List.map_flatMap]
    refine List.flatMap_congr fun r _ => ?_
    rw [Relation.selected, Relation.aliases, List.map_map, List.map_map]
    rfl
  have hat := congrArg (fun names => names[index]?) hnamed
  simp only [List.getElem?_map, hselected, Option.map_some] at hat
  obtain ⟨found, hfound, hsome⟩ := Option.map_eq_some_iff.mp hat.symm
  rw [hfound, Option.some.inj hsome]

/-- Among names of which none comes twice, a name is found where it is. -/
theorem findIdx?_of_nodup {names : List String} (h : names.Nodup) {index : Nat} {name : String}
    (hname : names[index]? = some name) : names.findIdx? (· == name) = some index := by
  obtain ⟨hlt, rfl⟩ := List.getElem?_eq_some_iff.mp hname
  refine List.findIdx?_eq_some_iff_getElem.mpr ⟨hlt, beq_self_eq_true _, ?_⟩
  intro j hj hsame
  exact absurd (h.getElem_inj_iff.mp (beq_iff_eq.mp hsame)) hj.ne

/-- A field that stands at a place is found among the result columns, if these have names of their
own. -/
theorem Reading.Stands.finds (hs : r.schema.Sound)
    (hprojection : query.projection = relations.all.flatMap (Relation.selected r.schema))
    (hdistinct : query.resultNames.Nodup) (h : reading.Stands r relations.all place column) :
    ∃ index, reading.Finds r query relations place column index := by
  have hnames := Relations.resultNames_of_selected hprojection
  obtain ⟨owner, whole, trees, hall, hat⟩ := h.level
  have hmem : place ∈ relations.all := by
    rcases hat.stands with ⟨rfl, rfl⟩ | ⟨hjoins, _⟩
    · exact hall.subset List.mem_cons_self
    · exact hall.subset (List.mem_cons_of_mem _ (hjoins.sublist.subset List.mem_cons_self))
  obtain ⟨c, hc, hname, hid⟩ := h.projected
  have hcolumn : r.schema.columnName c.column = column.name := by
    have hown := Resolver.mem_of_scalarColumn h.resolved
    rcases r.schema.table_cases place.table with htable | hnone
    · rw [hid, hs.columnName_eq htable hown]
    · rw [hnone] at hown
      cases hown
  have hselected : (⟨.columnOf place.aliasName column.name, some reading.field.path.display⟩ :
      Projected) ∈ query.projection := by
    rw [hprojection, h.path, ← hname, ← place.columnAlias_display, ← hcolumn]
    exact List.mem_flatMap.mpr ⟨place, hmem, List.mem_map_of_mem hc⟩
  obtain ⟨index, hindex⟩ := List.mem_iff_getElem?.mp hselected
  have hposition := Relations.resultNames_getElem? hprojection hindex
  refine ⟨index, ⟨List.mem_filter.mpr ⟨hmem, ?_⟩, h.path, h.resolved, hindex,
    findIdx?_of_nodup hdistinct hposition, ?_⟩⟩
  · rw [h.shown]
    rfl
  · intro row e hlength he
    rw [h.value_eq (hnames ▸ hdistinct) he]
    have hcell := congrArg (fun cells => cells[index]?) (LevelTree.map_cell hdistinct hlength)
    simp only [List.getElem?_map, hposition, Option.map_some] at hcell
    rw [List.getD_eq_getElem?_getD, ← hcell, Option.getD_some]

end Found

/-- Names that are told apart where they are printed: shown fields beside each other have names of their
own, names of fields, keys and joined tables have no dots, only key columns are marked, and joined paths
are spelled like the output. -/
structure QuerySpec.NamesPlain (spec : QuerySpec) (s : Schema) (output : FieldTree) : Prop where
  apart : output.NamesApart
  plain : output.PlainNames
  keys : s.KeysPlain
  joins : spec.JoinsSpelled output
  steps : ∀ step ∈ FieldTree.joinSteps spec.arguments.children, Undotted step

instance (spec : QuerySpec) (s : Schema) (output : FieldTree) : Decidable (spec.NamesPlain s output) :=
  decidable_of_iff (output.NamesApart ∧ output.PlainNames ∧ s.KeysPlain ∧ spec.JoinsSpelled output ∧
      ∀ step ∈ FieldTree.joinSteps spec.arguments.children, Undotted step)
    ⟨fun h => ⟨h.1, h.2.1, h.2.2.1, h.2.2.2.1, h.2.2.2.2⟩,
      fun h => ⟨h.apart, h.plain, h.keys, h.joins, h.steps⟩⟩

/-- A count has no result column with a name. -/
theorem Compiler.count_of_compile {declarations : List TableDeclaration} {schema : Schema}
    {setup : CompilerSetup} {c : Compiler} {spec : QuerySpec} {compiled : Compiled}
    (hschema : Schema.build declarations = .ok schema) (hsetup : setup.schema = some schema)
    (hbuild : setup.build = .ok c) (hcompile : c.compile spec = .ok compiled)
    (hcount : spec.outputKind = .count) :
    ∃ query, compiled.plan.batch = [.query query] ∧ query.resultNames = [] := by
  have hallows := Plan.allows_of_ofSpec (ofSpec_of_compile hcompile).2
  rw [hcount] at hallows
  have hselect : spec.operation = .select := by
    cases hoperation : spec.operation with
    | select => rfl
    | _ =>
      rw [hoperation] at hallows
      cases hallows
  obtain ⟨p, d, query, relations, hp, hquery, hbatch, _⟩ :=
    select_of_compile hschema hsetup hbuild hcompile hselect
  refine ⟨query, hbatch, ?_⟩
  obtain ⟨_, _, _, _, _, _, _, _, _, _, hcases⟩ := p.select_inv hquery
  have hcounts : p.outputKind = .count := hp.outputKind.trans hcount
  rcases hcases with ⟨_, _, rfl, _⟩ | ⟨hnot, _⟩ | ⟨hnot, _⟩
  · rfl
  · exact absurd hcounts hnot
  · exact absurd hcounts hnot

/-- The rows of a compiled statement are read by what it selects. A count has no result column with a
name. Where entities are returned, each shown scalar field is read once. If shown fields beside each other
have names of their own and places are told apart, no two result columns have one name, and a field is
read where the column is selected that it resolves to, at the one place of its path. Plain names tell
places apart. -/
theorem Compiled.reads_selected {declarations : List TableDeclaration} {schema : Schema}
    {setup : CompilerSetup} {c : Compiler} {declaration : SpecDeclaration} {shapes : Shapes}
    {spec : QuerySpec} {compiled : Compiled} (hschema : Schema.build declarations = .ok schema)
    (hsetup : setup.schema = some schema) (hbuild : setup.build = .ok c)
    (hspec : declaration.build shapes = .ok spec) (hcompile : c.compile spec = .ok compiled)
    (hreturns : spec.outputKind = .one ∨ spec.outputKind = .many ∨ spec.outputKind = .count) :
    ∃ before query, compiled.plan.batch = before ++ [.query query] ∧
      (spec.outputKind = .count → query.resultNames = []) ∧
      (spec.outputKind ≠ .count → ∃ output relations levels, spec.output = some output ∧
        compiled.plan.relations = some relations ∧
        compiled.materializer = some ⟨levels, some output, spec.outputKind⟩ ∧
        (∀ name ∈ levels.sources, name ∈ query.resultNames) ∧
        (Entity.readingsAll levels .root output.children).map Reading.field =
          FieldTree.shownScalarsAll output.children ∧
        (spec.NamesPlain schema output → relations.ToldApart schema) ∧
        (output.NamesApart → relations.ToldApart schema →
          query.resultNames.Nodup ∧ ((places relations.all).map Relation.path).Nodup ∧
          ∀ reading ∈ Entity.readingsAll levels .root output.children, ∃ place column index,
            reading.Finds c.resolver query relations place column index)) := by
  have hbuilt : c.schema = schema := CompilerSetup.schema_of_build hsetup hbuild
  subst hbuilt
  rw [← or_assoc] at hreturns
  rcases hreturns with hkind | hcount
  · obtain ⟨p, output, before, query, relations, hresolver, htable, harguments, houtput, hrooted, hbatch,
      hrelations, hprojection, hreads, hmaterializer⟩ := Compiler.returned_of_compile hspec hcompile hkind
    have hplanned : p.schema = c.schema := by
      rw [Planner.schema, hresolver]
      rfl
    have hnested := hreads.nested hrooted
    have hnames : query.resultNames = relations.all.flatMap Relation.aliases :=
      Relations.resultNames_of_selected hprojection
    have hsound : p.schema.Sound := hplanned ▸ Schema.build_sound hschema
    have htidy : relations.Tidy (spec.NamesPlain c.schema output) p.schema :=
      hreads.tidy (fun hplain => hplanned ▸ hplain.keys) hrooted (fun hplain => hplain.plain) harguments
        fun hplain => hplain.steps
    obtain ⟨field, kids⟩ := output
    refine ⟨before, query, hbatch, fun hcount => ?_, fun _ => ⟨_, relations, _, houtput, hrelations,
      hmaterializer, ?_, Entity.map_field_readingsAll _ _ _, ?_, fun happart htold => ?_⟩⟩
    · rw [hcount] at hkind
      rcases hkind with hone | hmany
      · cases hone
      · cases hmany
    · intro name hname
      rw [hnames]
      exact (LevelTree.sources_ofRelations hnested.root).mem_iff.mp hname
    · intro hplain
      have hspelled := hreads.spelledOut hrooted hplain.apart harguments hplain.joins
      rw [hplanned] at htidy
      exact htidy.toldApart (Schema.build_sound hschema) (Schema.build_namedApart hschema) hplain
        hspelled.pathsApart
    · rw [hplanned] at htidy
      have hdistinct : query.resultNames.Nodup := hnames ▸ Relations.aliases_nodup htidy htold
      have hhosted := hreads.hosted hsound (hplanned ▸ Schema.build_keyed hschema)
        (hplanned ▸ htable) happart
      have hat := LevelTree.at_root c.schema hnested.root hnested.tree htold.ways
      refine ⟨hdistinct, htold.paths, fun reading hreading => ?_⟩
      have hall : (relations.root :: Tree.preorderAll relations.tree.children).Sublist
          relations.all := by
        obtain ⟨⟨root, kids⟩, supply⟩ := relations
        exact List.Sublist.refl _
      have hshown : relations.root.isTransparent = false := by
        rw [Relation.isTransparent, htidy.root]
      obtain ⟨place, column, hstands⟩ := Entity.readingsAll_stand kids hat hall hshown
        (hresolver ▸ hhosted) (hreads.root_path.symm ▸ hrooted.2) reading hreading
      obtain ⟨index, hfinds⟩ := hstands.finds (Schema.build_sound hschema) hprojection hdistinct
      exact ⟨place, column, index, hfinds⟩
  · obtain ⟨query, hbatch, hnone⟩ :=
      Compiler.count_of_compile hschema hsetup hbuild hcompile hcount
    exact ⟨[], query, hbatch, fun _ => hnone, fun hnot => absurd hcount hnot⟩

/-- The names are plain, and these fields are shown. -/
def readTest (paths : List String) (c : Compiler) (spec : QuerySpec) (_ : Compiled) : Bool :=
  decide (spec.outputKind = .many) && spec.output.any fun output =>
    decide (spec.NamesPlain c.schema output ∧
      (FieldTree.shownScalarsAll output.children).map (fun field => field.path.display) = paths)

theorem readTest_cases {paths : List String} {c : Compiler} {spec : QuerySpec} {compiled : Compiled}
    (h : readTest paths c spec compiled = true) : spec.outputKind = .many ∧
      ∃ output, spec.output = some output ∧ spec.NamesPlain c.schema output ∧
        (FieldTree.shownScalarsAll output.children).map (fun field => field.path.display) = paths := by
  rw [readTest, Bool.and_eq_true, decide_eq_true_eq, Option.any_eq_true] at h
  obtain ⟨hmany, output, houtput, htest⟩ := h
  exact ⟨hmany, output, houtput, of_decide_eq_true htest⟩

/-- The fields of people, pets and cars are read where they are selected. -/
theorem Compiled.reads_selected_owned :
    ∃ schema spec compiled query output relations levels,
      Schema.build ownedDeclarations = .ok schema ∧ ownedList.build (ownedShapes "Pets") = .ok spec ∧
      (⟨schema, default, .exact⟩ : Compiler).compile spec = .ok compiled ∧
      compiled.plan.relations = some relations ∧
      compiled.materializer = some ⟨levels, some output, .many⟩ ∧
      (Entity.readingsAll levels .root output.children).map
        (fun reading => reading.field.path.display) = ["Id", "Pets.Id", "Own.All.Code"] ∧
      ∀ reading ∈ Entity.readingsAll levels .root output.children, ∃ place column index,
        reading.Finds (⟨schema, default, .exact⟩ : Compiler).resolver query relations place column
          index := by
  obtain ⟨schema, spec, compiled, hschema, hspec, hcompile, htest⟩ :
      ∃ schema spec compiled, Schema.build ownedDeclarations = .ok schema ∧
        ownedList.build (ownedShapes "Pets") = .ok spec ∧
        (⟨schema, default, .exact⟩ : Compiler).compile spec = .ok compiled ∧
        readTest ["Id", "Pets.Id", "Own.All.Code"] ⟨schema, default, .exact⟩ spec compiled = true :=
    Compiler.exists_compiled (by decide +kernel)
  obtain ⟨hmany, output, houtput, hplain, hpaths⟩ := readTest_cases htest
  have hbuild : (CompilerSetup.mk (some schema) default (some .exact)).build =
      .ok ⟨schema, default, .exact⟩ := rfl
  obtain ⟨_, query, _, _, hentities⟩ :=
    reads_selected hschema rfl hbuild hspec hcompile (Or.inr (Or.inl hmany))
  have hcount : spec.outputKind ≠ .count := by
    rw [hmany]
    nofun
  obtain ⟨output', relations, levels, houtput', hrelations, hmaterializer, _, hfields, htold, hread⟩ :=
    hentities hcount
  cases houtput.symm.trans houtput'
  rw [hmany] at hmaterializer
  refine ⟨schema, spec, compiled, query, output, relations, levels, hschema, hspec, hcompile, hrelations,
    hmaterializer, ?_, (hread hplain.apart (htold hplain)).2.2⟩
  rw [← hpaths, ← hfields, List.map_map]
  rfl

/-- People have a code and an alternative code. -/
def codedDeclarations : List TableDeclaration := [
  ⟨"Person", .table, [⟨"Id", .integer 4, false, true, false⟩, ⟨"Code", .integer 4, false, false, false⟩,
    ⟨"Alt", .integer 4, false, false, false⟩], []⟩]

/-- The codes are shown under the name of the key and under the marked name. -/
def codedShapes : Shapes := .ofList [
  ⟨"Person", none, [⟨"Id", .i32, false, { (default : Directives) with column := some "Code" }⟩,
    ⟨"__pk_Id", .i32, false, { (default : Directives) with column := some "Alt" }⟩]⟩]

/-- A field of people is named like the path to one of their pets. -/
def dottedShapes : Shapes := .ofList [
  ⟨"Person", none, [⟨"Pet.Id", .i32, false, { (default : Directives) with column := some "Id" }⟩,
    ⟨"Pet", .list (.shape "Pet"), false, default⟩]⟩,
  ⟨"Pet", none, [⟨"Id", .i32, false, default⟩]⟩]

/-- People have two fields of one name for their pets. -/
def twinShapes : Shapes := .ofList [
  ⟨"Person", none, [⟨"Pet", .list (.shape "Pet"), false, default⟩,
    ⟨"Pet", .list (.shape "Pet"), false, default⟩]⟩,
  ⟨"Pet", none, [⟨"Id", .i32, false, default⟩]⟩]

/-- Below one of the fields for pets that differ by case, the toys of pets are shown. -/
def casedShapes : Shapes := .ofList [
  ⟨"Person", none, [⟨"pet", .list (.shape "Pet"), false, default⟩,
    ⟨"Pet", .list (.shape "Toys"), false, default⟩]⟩,
  ⟨"Pet", none, [⟨"Id", .i32, false, default⟩]⟩,
  ⟨"Toys", some "Pet", [⟨"Toy", .list (.shape "Toy"), false, default⟩]⟩,
  ⟨"Toy", none, [⟨"Id", .i32, false, default⟩]⟩]

/-- A compiled select has these result columns, of which two have one name. -/
def Clashes (declarations : List TableDeclaration) (shapes : Shapes) (declaration : SpecDeclaration)
    (names : List String) : Prop :=
  ∃ schema spec compiled query, Schema.build declarations = .ok schema ∧
    declaration.build shapes = .ok spec ∧
    (⟨schema, default, .exact⟩ : Compiler).compile spec = .ok compiled ∧
    compiled.plan.batch = [.query query] ∧ query.resultNames = names ∧ ¬names.Nodup

def clashesTest (names : List String) (_ : Compiler) (_ : QuerySpec) (compiled : Compiled) : Bool :=
  match compiled.plan.batch with
  | [.query query] => decide (query.resultNames = names ∧ ¬names.Nodup)
  | _ => false

theorem clashes_of_test {declarations : List TableDeclaration} {shapes : Shapes}
    {declaration : SpecDeclaration} {names : List String}
    (h : ∃ schema spec compiled, Schema.build declarations = .ok schema ∧
      declaration.build shapes = .ok spec ∧
      (⟨schema, default, .exact⟩ : Compiler).compile spec = .ok compiled ∧
      clashesTest names ⟨schema, default, .exact⟩ spec compiled = true) :
    Clashes declarations shapes declaration names := by
  obtain ⟨schema, spec, compiled, hschema, hspec, hcompile, htest⟩ := h
  unfold clashesTest at htest
  split at htest
  · rename_i query hbatch
    obtain ⟨hnames, htwice⟩ := of_decide_eq_true htest
    exact ⟨schema, spec, compiled, query, hschema, hspec, hcompile, hbatch, hnames, htwice⟩
  · cases htest

/-- Two result columns have one name where a field has the marked name of a key, where a name has a dot
in it, where fields beside each other have one name, and where a joined path is spelled like another
field than the one whose place it leads on from. -/
theorem Compiled.result_names_clash :
    Clashes codedDeclarations codedShapes ownedList ["Id", "__pk_Id", "__pk_Id"] ∧
    Clashes ownedDeclarations dottedShapes ownedList ["Pet.Id", "Pet.Id"] ∧
    Clashes ownedDeclarations twinShapes ownedList ["Id", "Pet.Id", "Pet.Id"] ∧
    Clashes toyDeclarations casedShapes byToy
      ["Id", "pet.Id", "Pet.Toy.Id", "Pet.Id", "Pet.Toy.Id"] := by
  refine ⟨clashes_of_test ?_, clashes_of_test ?_, clashes_of_test ?_, clashes_of_test ?_⟩
  · exact Compiler.exists_compiled (by decide +kernel)
  · exact Compiler.exists_compiled (by decide +kernel)
  · exact Compiler.exists_compiled (by decide +kernel)
  · exact Compiler.exists_compiled (by decide +kernel)

end ShapeSql
