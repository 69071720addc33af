import ShapeSql.Proofs.Relation.Spelled

/-!
The columns of places have names of their own. A field projects its column under its own name; a key
column that no field asks for is projected under the name of the column, or under a marked one where a
field has that name. A marked name stands for its key column alone where no field and no key column has
a marked name itself.
-/

namespace ShapeSql

/-- Without dots, so that it is one step of a printed path. -/
def Undotted (name : String) : Prop := '.' ∉ name.toList

instance : DecidablePred Undotted := fun name => inferInstanceAs (Decidable ('.' ∉ name.toList))

/-- With the mark of a key column whose name is taken. -/
def Marked (name : String) : Prop := "__pk_".toList <+: name.toList

instance : DecidablePred Marked := fun name =>
  inferInstanceAs (Decidable ("__pk_".toList <+: name.toList))

theorem marked_append (name : String) : Marked ("__pk_" ++ name) := by
  rw [Marked, String.toList_append]
  exact List.prefix_append _ _

theorem undotted_marked {name : String} (h : Undotted name) : Undotted ("__pk_" ++ name) := by
  rw [Undotted, String.toList_append, List.mem_append, not_or]
  exact ⟨by decide, h⟩

/-- Key columns have names without dots and marks. -/
def Schema.KeysPlain (s : Schema) : Prop :=
  ∀ t ∈ s.tables, ∀ key ∈ t.primaryKey, Undotted (s.columnName key) ∧ ¬Marked (s.columnName key)

instance (s : Schema) : Decidable s.KeysPlain :=
  inferInstanceAs (Decidable (∀ t ∈ s.tables, ∀ key ∈ t.primaryKey,
    Undotted (s.columnName key) ∧ ¬Marked (s.columnName key)))

namespace FieldTree

mutual

/-- The fields shown below a field have names without dots, and those that are columns without marks. -/
def PlainNames : FieldTree → Prop
  | .node _ kids => PlainNamesAll kids

def PlainNamesAll : List FieldTree → Prop
  | [] => True
  | t :: ts =>
    (t.label.directives.exclude = false →
      Undotted t.label.name ∧ (t.label.isScalar = true → ¬Marked t.label.name) ∧ PlainNames t) ∧
      PlainNamesAll ts

end

mutual

def decidablePlainNames : (t : FieldTree) → Decidable t.PlainNames
  | .node _ kids => decidablePlainNamesAll kids

def decidablePlainNamesAll : (ts : List FieldTree) → Decidable (PlainNamesAll ts)
  | [] => inferInstanceAs (Decidable True)
  | t :: ts =>
    have := decidablePlainNames t
    have := decidablePlainNamesAll ts
    inferInstanceAs (Decidable ((_ → _ ∧ (_ → _) ∧ _) ∧ _))

end

instance : DecidablePred PlainNames := decidablePlainNames

end FieldTree

/-- The names of columns. -/
def columnNames (columns : List ProjectedColumn) : List String := columns.map ProjectedColumn.name

theorem columnNames_snoc {columns : List ProjectedColumn} (h : (columnNames columns).Nodup)
    {c : ProjectedColumn} (hnew : c.name ∉ columnNames columns) :
    (columnNames (columns ++ [c])).Nodup := by
  rw [columnNames, List.map_append, List.map_singleton, ← List.concat_eq_append]
  exact h.concat hnew

theorem mem_columnNames {columns : List ProjectedColumn} {name : String} :
    name ∈ columnNames columns ↔ (columns.any fun c => c.name == name) = true := by
  simp only [columnNames, List.mem_map, List.any_eq_true, beq_iff_eq]

/-- Columns without dots in their names, of which a marked one is the key column that it is named after. -/
structure Neat (s : Schema) (table : TableId) (columns : List ProjectedColumn) : Prop where
  undotted : ∀ c ∈ columns, Undotted c.name
  marked : ∀ c ∈ columns, Marked c.name →
    c.column ∈ (s.table table).primaryKey ∧ c.name = "__pk_" ++ s.columnName c.column

namespace Neat

variable {s : Schema} {table : TableId} {columns : List ProjectedColumn}

theorem nil : Neat s table [] := ⟨nofun, nofun⟩

theorem snoc (h : Neat s table columns) {c : ProjectedColumn} (hundotted : Undotted c.name)
    (hmarked : Marked c.name →
      c.column ∈ (s.table table).primaryKey ∧ c.name = "__pk_" ++ s.columnName c.column) :
    Neat s table (columns ++ [c]) where
  undotted := List.forall_mem_append.mpr ⟨h.undotted, List.forall_mem_singleton.mpr hundotted⟩
  marked := List.forall_mem_append.mpr ⟨h.marked, List.forall_mem_singleton.mpr hmarked⟩

theorem project (h : Neat s table columns) (column : ColumnId) {name : String}
    (hundotted : Undotted name) (hplain : ¬Marked name) :
    Neat s table (Relation.project columns column name) := by
  unfold Relation.project
  split
  · exact h
  · exact h.snoc hundotted fun hmarked => absurd hmarked hplain

theorem anchorColumn (hplain : s.KeysPlain) (h : Neat s table columns) {key : ColumnId}
    (hkey : key ∈ (s.table table).primaryKey) : Neat s table (Relation.anchorColumn s columns key) := by
  have hplaced : s.table table ∈ s.tables := by
    rcases s.table_cases table with hmem | hnone
    · exact hmem
    · rw [hnone] at hkey
      cases hkey
  obtain ⟨hundotted, hunmarked⟩ := hplain _ hplaced key hkey
  unfold Relation.anchorColumn
  split
  · exact h
  · simp only
    split
    · exact h.snoc (undotted_marked hundotted) fun _ => ⟨hkey, rfl⟩
    · exact h.snoc hundotted fun hmarked => absurd hmarked hunmarked

/-- A column that is united into others is one more, or stands for one of its name. -/
theorem uniteColumn_cases (columns : List ProjectedColumn) (c : ProjectedColumn) :
    Relations.uniteColumn columns c = columns ++ [c] ∧ c.name ∉ columns.map ProjectedColumn.name ∨
      (Relations.uniteColumn columns c).map ProjectedColumn.name =
        columns.map ProjectedColumn.name ∧
      ∀ d ∈ Relations.uniteColumn columns c, ∃ e ∈ columns, e.name = d.name ∧ e.column = d.column := by
  induction columns with
  | nil => exact Or.inl ⟨rfl, List.not_mem_nil⟩
  | cons own rest ih =>
    rw [Relations.uniteColumn]
    split
    · refine Or.inr ⟨rfl, List.forall_mem_cons.mpr ⟨⟨own, List.mem_cons_self, rfl, rfl⟩, ?_⟩⟩
      exact fun d hd => ⟨d, List.mem_cons_of_mem _ hd, rfl, rfl⟩
    · rename_i hother
      rcases ih with ⟨hadded, hnew⟩ | ⟨hnames, hkept⟩
      · refine Or.inl ⟨congrArg (List.cons own) hadded, ?_⟩
        rw [List.map_cons, List.mem_cons, not_or]
        exact ⟨Ne.symm hother, hnew⟩
      · refine Or.inr ⟨?_, List.forall_mem_cons.mpr ⟨⟨own, List.mem_cons_self, rfl, rfl⟩, ?_⟩⟩
        · rw [List.map_cons, List.map_cons, hnames]
        · intro d hd
          obtain ⟨e, he, hsame⟩ := hkept d hd
          exact ⟨e, List.mem_cons_of_mem _ he, hsame⟩

theorem uniteColumns (h : Neat s table columns) {other : List ProjectedColumn}
    (hother : Neat s table other) : Neat s table (Relations.uniteColumns columns other) := by
  have hunited : ∀ (rest : List ProjectedColumn) {columns : List ProjectedColumn},
      (∀ c ∈ rest, c ∈ other) → Neat s table columns →
        Neat s table (rest.foldl Relations.uniteColumn columns) := by
    intro rest
    induction rest with
    | nil => exact fun _ h => h
    | cons c rest ih =>
      intro columns hrest h
      rw [List.forall_mem_cons] at hrest
      refine ih hrest.2 ?_
      rcases uniteColumn_cases columns c with ⟨hadded, _⟩ | ⟨_, hkept⟩
      · rw [hadded]
        exact h.snoc (hother.undotted c hrest.1) (hother.marked c hrest.1)
      · refine ⟨fun d hd => ?_, fun d hd => ?_⟩
        · obtain ⟨e, he, hname, _⟩ := hkept d hd
          exact hname ▸ h.undotted e he
        · obtain ⟨e, he, hname, hcolumn⟩ := hkept d hd
          rw [← hname, ← hcolumn]
          exact h.marked e he
  exact hunited other (fun _ hc => hc) h

end Neat

/-- No other column has the marked name of a key column. -/
def MarksKeys (s : Schema) (table : TableId) (columns : List ProjectedColumn) : Prop :=
  ∀ c ∈ columns, ∀ key ∈ (s.table table).primaryKey,
    c.name = "__pk_" ++ s.columnName key → c.column = key

instance (s : Schema) (table : TableId) (columns : List ProjectedColumn) :
    Decidable (MarksKeys s table columns) :=
  inferInstanceAs (Decidable (∀ c ∈ columns, ∀ key ∈ (s.table table).primaryKey, _ → _))

section Distinct

variable {s : Schema} {table : TableId} {columns : List ProjectedColumn}

/-- Marked names stand for the key columns that they are named after, as no two have one name. -/
theorem Neat.marksKeys (hs : s.Sound) (hnamed : s.NamedApart) (h : Neat s table columns) :
    MarksKeys s table columns := by
  intro c hc key hkey hname
  have hplaced : s.table table ∈ s.tables := by
    rcases s.table_cases table with hmem | hnone
    · exact hmem
    · rw [hnone] at hkey
      cases hkey
  have howns : ∀ other ∈ (s.table table).primaryKey, (s.table table).Owns other :=
    fun other hother => (hs.laid _ hplaced).owns_of_mem_primaryKey hother
  obtain ⟨hother, hcalled⟩ := h.marked c hc (hname ▸ marked_append _)
  have hsame : s.columnName c.column = s.columnName key := by
    have happended := congrArg String.toList (hcalled.symm.trans hname)
    rw [String.toList_append, String.toList_append] at happended
    exact String.toList_injective (List.append_cancel_left happended)
  exact hnamed.eq_of_columnName hs hplaced (howns _ hother) (howns _ hkey) (congrArg lowerAscii hsame)

/-- What keeps all columns keeps it too that a marked name stands for its key. -/
theorem MarksKeys.of_kept {after : List ProjectedColumn}
    (hkept : ∀ c ∈ columns, ∃ d ∈ after, d.name = c.name ∧ d.column = c.column)
    (h : MarksKeys s table after) : MarksKeys s table columns := by
  intro c hc key hkey hname
  obtain ⟨d, hd, hsame, hcolumn⟩ := hkept c hc
  exact hcolumn.symm.trans (h d hd key hkey (hsame.trans hname))

theorem nodup_project (h : (columnNames columns).Nodup) (column : ColumnId) (name : String) :
    (columnNames (Relation.project columns column name)).Nodup := by
  unfold Relation.project
  split
  · exact h
  · rename_i hfree
    exact columnNames_snoc h fun hmem => hfree (mem_columnNames.mp hmem)

/-- A key column finds a name: the marked one is free where no other column is called so. -/
theorem nodup_anchorColumn (h : (columnNames columns).Nodup) (hmarks : MarksKeys s table columns)
    {key : ColumnId} (hkey : key ∈ (s.table table).primaryKey) :
    (columnNames (Relation.anchorColumn s columns key)).Nodup := by
  unfold Relation.anchorColumn
  split
  · exact h
  · rename_i habsent
    simp only
    split
    · refine columnNames_snoc h fun hmem => habsent ?_
      obtain ⟨c, hc, hname⟩ := List.mem_map.mp hmem
      exact List.any_eq_true.mpr ⟨c, hc, beq_iff_eq.mpr (hmarks c hc key hkey hname)⟩
    · rename_i hfree
      exact columnNames_snoc h fun hmem => hfree (mem_columnNames.mp hmem)

theorem nodup_anchorColumns {keys : List ColumnId} (hkeys : ∀ key ∈ keys, key ∈ (s.table table).primaryKey)
    (h : (columnNames columns).Nodup)
    (hmarks : MarksKeys s table (keys.foldl (Relation.anchorColumn s) columns)) :
    (columnNames (keys.foldl (Relation.anchorColumn s) columns)).Nodup := by
  induction keys generalizing columns with
  | nil => exact h
  | cons key keys ih =>
    rw [List.forall_mem_cons] at hkeys
    refine ih hkeys.2 (nodup_anchorColumn h (hmarks.of_kept fun c hc => ?_) hkeys.1) hmarks
    exact ⟨c, Relation.mem_anchorColumns s (key :: keys) hc, rfl, rfl⟩

/-- Columns that are united into others are called differently. -/
theorem nodup_uniteColumns (h : (columnNames columns).Nodup) (other : List ProjectedColumn) :
    (columnNames (Relations.uniteColumns columns other)).Nodup := by
  rw [Relations.uniteColumns]
  induction other generalizing columns with
  | nil => exact h
  | cons c rest ih =>
    refine ih ?_
    rcases Neat.uniteColumn_cases columns c with ⟨hadded, hnew⟩ | ⟨hnames, _⟩
    · rw [hadded]
      exact columnNames_snoc h hnew
    · exact (congrArg List.Nodup hnames).mpr h

end Distinct

/-- A place with columns of names of their own, where no other column has the marked name of a key.
Junctions and hops project nothing. If the names are plain, those of the columns are, and the path can
be read back from how it is printed. -/
structure Relation.Tidy (plain : Prop) (s : Schema) (r : Relation) : Prop where
  distinct : (r.isBound = true → MarksKeys s r.table r.columns) → (columnNames r.columns).Nodup
  neat : plain → Neat s r.table r.columns
  passed : r.isTransparent = true → r.columns = []
  path : plain → ∀ step ∈ r.path.steps, Undotted step

theorem Relation.Tidy.of_same {plain : Prop} {s : Schema} {r q : Relation} (h : r.Tidy plain s)
    (htable : q.table = r.table) (hpath : q.path = r.path) (hkind : q.kind = r.kind)
    (hcolumns : q.columns = r.columns) : q.Tidy plain s where
  distinct := by
    rw [htable, hcolumns, Relation.isBound_of_kind hkind]
    exact h.distinct
  neat := by
    rw [htable, hcolumns]
    exact h.neat
  passed := by
    rw [Relation.isTransparent_of_kind hkind, hcolumns]
    exact h.passed
  path := hpath ▸ h.path

/-- All places of the trees are tidy. -/
def TidyAll (plain : Prop) (s : Schema) (trees : List RelationTree) : Prop :=
  ∀ r ∈ Tree.preorderAll trees, r.Tidy plain s

section Merge

variable {plain : Prop} {s : Schema}

theorem tidyAll_cons {r : Relation} {kids trees : List RelationTree} :
    TidyAll plain s (.node r kids :: trees) ↔ r.Tidy plain s ∧ TidyAll plain s kids ∧ TidyAll plain s trees := by
  simp only [TidyAll, Tree.preorderAll, Tree.preorder, List.cons_append, List.forall_mem_cons,
    List.forall_mem_append]

theorem tidyAll_append {xs ys : List RelationTree} :
    TidyAll plain s (xs ++ ys) ↔ TidyAll plain s xs ∧ TidyAll plain s ys := by
  simp only [TidyAll, Tree.preorderAll_eq_flatMap, List.flatMap_append, List.forall_mem_append]

theorem tidyAll_nil : TidyAll plain s [] := nofun

namespace Relations

mutual

theorem copyTree_tidy : ∀ (t : RelationTree) (parentAlias : String) (u : Supply),
    TidyAll plain s [t] → TidyAll plain s [(copyTree parentAlias t u).1]
  | .node r kids, parentAlias, u, h => by
    obtain ⟨hr, hkids, _⟩ := tidyAll_cons.mp h
    rw [copyTree]
    refine tidyAll_cons.mpr ⟨?_, copyTrees_tidy kids _ _ hkids, tidyAll_nil⟩
    have hsame := u.path_relation r.table r.name r.path r.join r.kind
      (if r.isEmbedded then none else some r.aliasName) parentAlias
    exact hr.of_same (u.table_relation ..) hsame.1 hsame.2.1 rfl

theorem copyTrees_tidy : ∀ (ts : List RelationTree) (parentAlias : String) (u : Supply),
    TidyAll plain s ts → TidyAll plain s (copyTrees parentAlias ts u).1
  | [], _, _, _ => tidyAll_nil
  | .node r kids :: ts, parentAlias, u, h => by
    obtain ⟨hr, hkids, hts⟩ := tidyAll_cons.mp h
    have hfirst := copyTree_tidy (.node r kids) parentAlias u
      (tidyAll_cons.mpr ⟨hr, hkids, tidyAll_nil⟩)
    have hrest := copyTrees_tidy ts parentAlias (copyTree parentAlias (.node r kids) u).2 hts
    rw [copyTrees]
    exact tidyAll_append.mpr ⟨hfirst, hrest⟩

end

mutual

theorem mergeTree_tidy : ∀ (other own : RelationTree) (u : Supply),
    own.label.table = other.label.table → own.label.kind = other.label.kind →
    TidyAll plain s [own] → TidyAll plain s [other] → TidyAll plain s [(mergeTree own other u).value]
  | .node r kids, .node label children, u, htable, hkind, hown, hother => by
    obtain ⟨hlabel, hchildren, _⟩ := tidyAll_cons.mp hown
    obtain ⟨hr, hkids, _⟩ := tidyAll_cons.mp hother
    rw [mergeTree]
    refine tidyAll_cons.mpr
      ⟨⟨?_, ?_, ?_, hlabel.path⟩, mergeTrees_tidy kids _ children u hchildren hkids, tidyAll_nil⟩
    · intro hmarks
      refine nodup_uniteColumns (hlabel.distinct fun hbound => ?_) r.columns
      exact (hmarks hbound).of_kept (label.keptAs_united r.columns).columns
    · intro hplain
      have hneat := hr.neat hplain
      rw [← show label.table = r.table from htable] at hneat
      exact (hlabel.neat hplain).uniteColumns hneat
    · intro hpassed
      have hnone : r.columns = [] :=
        hr.passed ((Relation.isTransparent_of_kind hkind).symm.trans hpassed)
      show uniteColumns label.columns r.columns = []
      rw [hnone]
      exact hlabel.passed hpassed

theorem mergeTrees_tidy : ∀ (others : List RelationTree) (parentAlias : String)
    (own : List RelationTree) (u : Supply), TidyAll plain s own → TidyAll plain s others →
      TidyAll plain s (mergeTrees parentAlias own others u).value
  | [], _, _, _, hown, _ => hown
  | .node r kids :: ts, parentAlias, own, u, hown, hothers => by
    obtain ⟨hr, hkids, hts⟩ := tidyAll_cons.mp hothers
    have ht : TidyAll plain s [.node r kids] := tidyAll_cons.mpr ⟨hr, hkids, tidyAll_nil⟩
    rcases mergeTrees_cons parentAlias own (.node r kids) ts u with ⟨_, h⟩ |
      ⟨before, label, children, behind, rfl, hmatching, ⟨_, h⟩ | ⟨join, _, hplaced⟩⟩
    · rw [h]
      have hcopy := copyTree_tidy (.node r kids) parentAlias u ht
      exact mergeTrees_tidy ts _ _ _ (tidyAll_append.mpr ⟨hown, hcopy⟩) hts
    · rw [h]
      exact hown
    · obtain ⟨htable, hkind, _⟩ := matching_iff.mp hmatching
      obtain ⟨hbefore, hpresent⟩ := tidyAll_append.mp hown
      obtain ⟨hlabel, hchildren, hbehind⟩ := tidyAll_cons.mp hpresent
      have hjoined : TidyAll plain s [.node { label with join } children] :=
        tidyAll_cons.mpr ⟨hlabel.of_same rfl rfl rfl rfl, hchildren, tidyAll_nil⟩
      have hmerged := mergeTree_tidy (.node r kids) (.node { label with join } children) u htable
        hkind hjoined ht
      have hset : TidyAll plain s (before ++ (mergeTree (.node { label with join } children)
          (.node r kids) u).value :: behind) := by
        refine tidyAll_append.mpr ⟨hbefore, ?_⟩
        rw [← List.singleton_append]
        exact tidyAll_append.mpr ⟨hmerged, hbehind⟩
      rcases hplaced with ⟨_, _, h⟩ | ⟨_, h⟩
      · rw [h]
        exact hset
      · rw [h]
        exact mergeTrees_tidy ts _ _ _ hset hts

end

end Relations

end Merge

section Resolve

variable {plain : Prop} {s : Schema}

theorem Relation.Tidy.anchorKey (hkeys : plain → s.KeysPlain) {r : Relation}
    (h : r.Tidy plain s) : (r.anchorKey s).Tidy plain s := by
  have hkept := (r.keptAs_anchorKey s).columns
  unfold Relation.anchorKey at hkept ⊢
  split
  · rename_i hbound
    rw [if_pos hbound] at hkept
    refine ⟨fun hmarks => ?_, fun hplain => ?_, fun hpassed => ?_, h.path⟩
    · have hmarks := hmarks hbound
      refine nodup_anchorColumns (fun _ hkey => hkey) ?_ hmarks
      exact h.distinct fun _ => hmarks.of_kept hkept
    · have hanchored : ∀ (keys : List ColumnId) {columns : List ProjectedColumn},
          (∀ key ∈ keys, key ∈ (s.table r.table).primaryKey) → Neat s r.table columns →
            Neat s r.table (keys.foldl (Relation.anchorColumn s) columns) := by
        intro keys
        induction keys with
        | nil => exact fun _ hneat => hneat
        | cons key keys ih =>
          intro columns hmem hneat
          rw [List.forall_mem_cons] at hmem
          exact ih hmem.2 (hneat.anchorColumn (hkeys hplain) hmem.1)
      exact hanchored _ (fun _ hkey => hkey) (h.neat hplain)
    · rw [Relation.isBound, show r.isTransparent = true from hpassed] at hbound
      cases hbound
  · exact h

theorem tidyAll_anchorKeys (hkeys : plain → s.KeysPlain) {trees : List RelationTree}
    (h : TidyAll plain s trees) : TidyAll plain s (Tree.mapAll (Relation.anchorKey s) trees) := by
  rw [TidyAll, Tree.preorderAll_mapAll, List.forall_mem_map]
  exact fun r hr => (h r hr).anchorKey hkeys

/-- What a way passes and leads to is tidy, if the columns projected there are. -/
theorem tidyAll_nested {columns : List ProjectedColumn} {kids : List RelationTree}
    {passed : List Relation} {place : Relation} (hpassed : ∀ q ∈ passed, q.Tidy plain s)
    (hplace : Relation.Tidy plain s { place with columns }) (hkids : TidyAll plain s kids) :
    TidyAll plain s (nested columns kids (passed ++ [place])) := by
  induction passed with
  | nil => exact tidyAll_cons.mpr ⟨hplace, hkids, tidyAll_nil⟩
  | cons q rest ih =>
    rw [List.forall_mem_cons] at hpassed
    rw [List.cons_append, nested_cons columns kids q (List.append_ne_nil_of_right_ne_nil _
      (List.cons_ne_nil _ _))]
    exact tidyAll_cons.mpr ⟨hpassed.1, ih hpassed.2, tidyAll_nil⟩

/-- A place that projects nothing yet. -/
theorem tidy_bare {r : Relation} {path : Path} (hpath : plain → ∀ step ∈ path.steps, Undotted step)
    (h : r.path = path ∧ r.columns = []) : r.Tidy plain s where
  distinct := by
    rw [h.2]
    exact fun _ => List.nodup_nil
  neat := by
    rw [h.2]
    exact fun _ => .nil
  passed := fun _ => h.2
  path := by
    rw [h.1]
    exact hpath

theorem undotted_join {above : Path} {name : String} (habove : ∀ step ∈ above.steps, Undotted step)
    (hname : Undotted name) : ∀ step ∈ (above.join name).steps, Undotted step :=
  List.forall_mem_append.mpr ⟨habove, List.forall_mem_singleton.mpr hname⟩

namespace Resolver

variable {r : Resolver}

mutual

/-- A field leaves the columns of the place around it apart and neat, and its own places are tidy. -/
theorem resolveField_tidy : ∀ (t : FieldTree) {table : Table} {aliasName : String}
    {columns : List ProjectedColumn} {u u' : Supply}
    {result : List ProjectedColumn × List RelationTree} {above : Path},
    (plain → ∀ step ∈ above.steps, Undotted step) → t.Rooted (above.join t.label.name) →
    (plain → t.label.directives.exclude = false → Undotted t.label.name ∧
      (t.label.isScalar = true → ¬Marked t.label.name) ∧ t.PlainNames) →
    (r.resolveField table aliasName columns t).run u = .ok (result, u') →
      ((columnNames columns).Nodup → (columnNames result.1).Nodup) ∧
      (plain → Neat r.schema table.id columns → Neat r.schema table.id result.1) ∧
        TidyAll plain r.schema result.2
  | .node field kids, table, aliasName, columns, u, u', result, above, habove, ⟨hpath, hkids⟩, hnames,
      hrun => by
    cases resolves_of_resolveField hrun with
    | excluded | cyclic => exact ⟨id, fun _ => id, tidyAll_nil⟩
    | scalar hshown hscalar =>
      refine ⟨fun h => nodup_project h _ _, fun hplain hneat => ?_, tidyAll_nil⟩
      obtain ⟨hundotted, hunmarked, _⟩ := hnames hplain hshown
      exact hneat.project _ hundotted (hunmarked hscalar)
    | @places _ _ _ _ own _ hshown _ _ hsteps hplaces hbelow =>
      obtain ⟨last, hleads, _⟩ := stepsTo_leads hsteps
      have hbare := Resolving.setUp_paths hplaces
      obtain ⟨passed, place, rfl, _, hplace, _, _, htable⟩ := Resolving.setUp_leads hleads hplaces
      obtain ⟨before, rfl, _, _⟩ := hleads
      rw [List.forall_mem_append, List.forall_mem_singleton] at hbare
      rw [List.getLast?_concat, Option.map_some, Option.getD_some] at hbelow
      have hthere : plain → ∀ step ∈ (above.join field.name).steps, Undotted step :=
        fun hplain => undotted_join (habove hplain) (hnames hplain hshown).1
      obtain ⟨hdistinct, hneat, htidy⟩ := resolveFields_tidy kids hthere hkids
        (fun hplain => (hnames hplain hshown).2.2) hbelow
      have hfield : plain → ∀ step ∈ field.path.steps, Undotted step := hpath ▸ hthere
      refine ⟨id, fun _ => id, tidyAll_nested (fun q hq => tidy_bare hfield (hbare.1 q hq)) ?_ htidy⟩
      refine ⟨fun _ => hdistinct List.nodup_nil, fun hplain => ?_, fun hpassed => ?_, ?_⟩
      · show Neat r.schema place.table own
        rw [htable]
        exact hneat hplain .nil
      · exact absurd (hplace.symm.trans hpassed) Bool.noConfusion
      · show plain → ∀ step ∈ place.path.steps, Undotted step
        rw [hbare.2.1]
        exact hfield

theorem resolveFields_tidy : ∀ (ts : List FieldTree) {table : Table} {aliasName : String}
    {columns : List ProjectedColumn} {u u' : Supply}
    {result : List ProjectedColumn × List RelationTree} {above : Path},
    (plain → ∀ step ∈ above.steps, Undotted step) → FieldTree.RootedAll above ts →
    (plain → FieldTree.PlainNamesAll ts) →
    (r.resolveFields table aliasName columns ts).run u = .ok (result, u') →
      ((columnNames columns).Nodup → (columnNames result.1).Nodup) ∧
      (plain → Neat r.schema table.id columns → Neat r.schema table.id result.1) ∧
        TidyAll plain r.schema result.2
  | [], table, aliasName, columns, u, u', result, above, _, _, _, hrun => by
    rw [resolveFields, run_pure_ok] at hrun
    rw [← hrun.1]
    exact ⟨id, fun _ => id, tidyAll_nil⟩
  | t :: ts, table, aliasName, columns, u, u', result, above, habove, ⟨hfirst, hrest⟩, hnames, hrun => by
    simp only [resolveFields, run_bind_ok, run_pure_ok] at hrun
    obtain ⟨⟨_, first⟩, between, hrunFirst, ⟨_, others⟩, after, hothers, rfl, rfl⟩ := hrun
    obtain ⟨hdistinct, hneat, htidy⟩ :=
      resolveField_tidy t habove hfirst (fun hplain => (hnames hplain).1) hrunFirst
    obtain ⟨hdistinctRest, hneatRest, htidyRest⟩ :=
      resolveFields_tidy ts habove hrest (fun hplain => (hnames hplain).2) hothers
    exact ⟨fun hbefore => hdistinctRest (hdistinct hbefore),
      fun hplain hbefore => hneatRest hplain (hneat hplain hbefore),
      tidyAll_append.mpr ⟨htidy, htidyRest⟩⟩

end

theorem resolveSteps_tidy {names : List String} {table : Table} {aliasName : String} {walked : Path}
    {u u' : Supply} {trees : List RelationTree}
    (hwalked : plain → ∀ step ∈ walked.steps, Undotted step)
    (hnames : plain → ∀ name ∈ names, Undotted name)
    (hrun : (r.resolveSteps table aliasName walked names).run u = .ok (trees, u')) :
    TidyAll plain s trees := by
  induction names generalizing table aliasName walked u trees with
  | nil =>
    rw [resolveSteps, run_pure_ok] at hrun
    rw [← hrun.1]
    exact tidyAll_nil
  | cons step rest ih =>
    simp only [List.forall_mem_cons] at hnames
    obtain ⟨_, link, places, between, below, _, _, hplaces, hbelow, rfl⟩ := resolveSteps_cons hrun
    obtain ⟨last, hleads, _⟩ := Step.ofLink_leads r.schema _ link false
    have hthere : plain → ∀ name ∈ (walked.join step).steps, Undotted name :=
      fun hplain => undotted_join (hwalked hplain) (hnames hplain).1
    have hbare := Resolving.setUp_paths hplaces
    obtain ⟨passed, place, rfl, _⟩ := Resolving.setUp_leads hleads hplaces
    rw [List.forall_mem_append, List.forall_mem_singleton] at hbare
    exact tidyAll_nested (fun q hq => tidy_bare hthere (hbare.1 q hq))
      (tidy_bare hthere ⟨hbare.2.1, rfl⟩) (ih hthere (fun hplain => (hnames hplain).2) hbelow)

end Resolver

namespace Relations

/-- All places of the relations are tidy, the one at the root among them. -/
structure Tidy (plain : Prop) (s : Schema) (relations : Relations) : Prop where
  root : relations.root.kind = .root
  places : TidyAll plain s [relations.tree]

theorem Tidy.all {relations : Relations} (h : relations.Tidy plain s) : ∀ r ∈ relations.all, r.Tidy plain s := by
  intro r hr
  apply h.places r
  rw [Tree.preorderAll, Tree.preorderAll, List.append_nil]
  exact hr

theorem Tidy.anchorKeys (hkeys : plain → s.KeysPlain) {relations : Relations} (h : relations.Tidy plain s) : (relations.anchorKeys s).Tidy plain s where
  root := by
    have hkept := kept_anchorKeys s relations.tree
    obtain ⟨⟨root, kids⟩, supply⟩ := relations
    exact hkept.1.kind.trans h.root
  places := tidyAll_anchorKeys hkeys h.places

theorem Tidy.merged {own other after : Relations} (hown : own.Tidy plain s) (hother : other.Tidy plain s)
    (h : own.merged other = .ok after) : after.Tidy plain s where
  root := by
    have hkept := merged_keeps h
    obtain ⟨⟨root, kids⟩, supply⟩ := own
    exact hkept.1.kind.trans hown.root
  places := by
    obtain ⟨htable, _, rfl⟩ := merged_inv h
    exact mergeTree_tidy _ _ _ htable (hown.root.trans hother.root.symm) hown.places hother.places

end Relations

theorem tidy_ofTable {table : Table} {columns : List ProjectedColumn} {kids : List RelationTree}
    {u : Supply} (hdistinct : (columnNames columns).Nodup) (hneat : plain → Neat s table.id columns)
    (hkids : TidyAll plain s kids) :
    Relations.Tidy plain s ⟨.node { (Relations.ofTable table).root with columns } kids, u⟩ where
  root := rfl
  places := tidyAll_cons.mpr ⟨⟨fun _ => hdistinct, hneat, nofun, fun _ => nofun⟩, hkids, tidyAll_nil⟩

namespace Resolver

variable {r : Resolver} {table : Table} {relations : Relations}

theorem resolve_tidy (hkeys : plain → r.schema.KeysPlain) {output : FieldTree}
    (hrooted : output.Rooted .root) (hnames : plain → output.PlainNames)
    (h : r.resolve table output = .ok relations) : relations.Tidy plain r.schema := by
  obtain ⟨columns, kids, supply, hrun, rfl⟩ := resolve_inv h
  obtain ⟨field, below⟩ := output
  obtain ⟨hdistinct, hneat, htidy⟩ :=
    resolveFields_tidy below (fun _ => List.forall_mem_nil _) hrooted.2 hnames hrun
  exact (tidy_ofTable (hdistinct List.nodup_nil) (fun hplain => hneat hplain .nil) htidy).anchorKeys hkeys

theorem resolvePath_tidy (hkeys : plain → r.schema.KeysPlain) {path : Path}
    (hpath : plain → ∀ step ∈ path.steps, Undotted step) (h : r.resolvePath table path = .ok relations) :
    relations.Tidy plain r.schema := by
  obtain ⟨kids, supply, hrun, rfl⟩ := resolvePath_inv h
  refine Relations.Tidy.anchorKeys hkeys (tidy_ofTable List.nodup_nil (fun _ => .nil) ?_)
  exact resolveSteps_tidy (fun _ => List.forall_mem_nil _) hpath hrun

end Resolver

end Resolve

end ShapeSql
