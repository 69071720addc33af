import ShapeSql.Proofs.Plan.Basic
import ShapeSql.Proofs.Plan.ChangeSites
import ShapeSql.Proofs.Plan.WindowSites
import ShapeSql.Proofs.Plan.WriteOrder

namespace ShapeSql

open Sql Planning

variable {s : Schema} {c : Catalog} {columns clauses : Prop} {d d' : Draft} {scopes outer : Scopes}

section Pairs

variable {left right name : String} {lefts rights : List String}

/-- Of one row source, or of two that are named apart, either is read through its name. -/
theorem Sql.Scopes.resolve_sole (h : name ∈ lefts) :
    Scopes.Resolve left name ([⟨left, lefts⟩] :: outer) := by
  have hapart : Apart ([(⟨left, lefts⟩ : Offer)].map Offer.aliasName) := List.nodup_singleton _
  exact Scopes.resolve_of_apart hapart (List.mem_singleton.mpr rfl) h

theorem Sql.Scopes.resolve_left (hapart : Apart [left, right]) (h : name ∈ lefts) :
    Scopes.Resolve left name ([⟨left, lefts⟩, ⟨right, rights⟩] :: outer) := by
  have hmem : (⟨left, lefts⟩ : Offer) ∈ [⟨left, lefts⟩, ⟨right, rights⟩] := List.mem_cons_self
  have hnames : Apart ([(⟨left, lefts⟩ : Offer), ⟨right, rights⟩].map Offer.aliasName) := hapart
  exact Scopes.resolve_of_apart hnames hmem h

theorem Sql.Scopes.resolve_right (hapart : Apart [left, right]) (h : name ∈ rights) :
    Scopes.Resolve right name ([⟨left, lefts⟩, ⟨right, rights⟩] :: outer) := by
  have hmem : (⟨right, rights⟩ : Offer) ∈ [⟨left, lefts⟩, ⟨right, rights⟩] :=
    List.mem_cons_of_mem _ (List.mem_singleton.mpr rfl)
  have hnames : Apart ([(⟨left, lefts⟩ : Offer), ⟨right, rights⟩].map Offer.aliasName) := hapart
  exact Scopes.resolve_of_apart hnames hmem h

end Pairs

theorem settles_columnOf {aliasName name : String} (h : columns → scopes.Resolve aliasName name) :
    d.Settles s c columns clauses ((Expr.columnOf aliasName name).collect (.sites c) scopes) := by
  rw [Expr.sites_columnOf]
  exact Draft.settles_column h

theorem settles_flatMap {α : Type} {items : List α} {sites : α → List Site}
    (h : ∀ a ∈ items, d.Settles s c columns clauses (sites a)) :
    d.Settles s c columns clauses (items.flatMap sites) := by
  intro site hsite
  obtain ⟨a, ha, hsite⟩ := List.mem_flatMap.mp hsite
  exact h a ha site hsite

/-- Equalities of columns, as joins and ties have them. -/
theorem settles_columnEqs {α : Type} (left right : α → String × String) {items : List α}
    (h : columns → ∀ a ∈ items, scopes.Resolve (left a).1 (left a).2 ∧
      scopes.Resolve (right a).1 (right a).2) :
    d.Settles s c columns clauses (Expr.collect (.sites c) scopes (.allOf (items.map fun a =>
      .eq (.columnOf (left a).1 (left a).2) (.columnOf (right a).1 (right a).2)))) := by
  rw [Expr.collect_allOf, List.flatMap_map]
  apply settles_flatMap
  intro a ha
  rw [Expr.collect_eq]
  exact Draft.settles_append.mpr ⟨settles_columnOf fun hasked => (h hasked a ha).1,
    settles_columnOf fun hasked => (h hasked a ha).2⟩

theorem settles_keyEq {left right : String} {key : List Column}
    (h : columns → ∀ column ∈ key, scopes.Resolve left column.name ∧
      scopes.Resolve right column.name) :
    d.Settles s c columns clauses ((Planner.keyEq left right key).collect (.sites c) scopes) := by
  rw [Planner.keyEq]
  exact settles_columnEqs (fun column : Column => (left, column.name))
    (fun column => (right, column.name)) h

theorem settles_pairsEq {p : Planner} {left right : String} {pairs : List JoinPair}
    (h : columns → ∀ pair ∈ pairs, scopes.Resolve left (p.schema.columnName pair.parent) ∧
      scopes.Resolve right (p.schema.columnName pair.child)) :
    d.Settles s c columns clauses ((p.pairsEq left right pairs).collect (.sites c) scopes) := by
  rw [Planner.pairsEq]
  exact settles_columnEqs (fun pair : JoinPair => (left, p.schema.columnName pair.parent))
    (fun pair => (right, p.schema.columnName pair.child)) h

/-- Assignments of columns to columns. -/
theorem settles_columnAssignments {α : Type} (column : α → String) (source : α → String × String)
    {items : List α} (h : columns → ∀ a ∈ items, scopes.Resolve (source a).1 (source a).2) :
    d.Settles s c columns clauses ((items.map fun a =>
      Assignment.set (column a) (.columnOf (source a).1 (source a).2)).flatMap
        (Assignment.collect (.sites c) scopes)) := by
  rw [List.flatMap_map]
  apply settles_flatMap
  intro a ha
  rw [Assignment.collect]
  exact settles_columnOf fun hasked => h hasked a ha

/-- Columns of one row source. -/
theorem settles_columnsOf {α : Type} (aliasName : String) (name : α → String) {items : List α}
    (h : columns → ∀ a ∈ items, scopes.Resolve aliasName (name a)) :
    d.Settles s c columns clauses
      (exprsCollect (.sites c) scopes (items.map fun a => .columnOf aliasName (name a))) := by
  rw [exprsCollect_eq, List.flatMap_map]
  apply settles_flatMap
  intro a ha
  exact settles_columnOf fun hasked => h hasked a ha

/-- Two tables or table variables, joined under names that differ. -/
theorem settles_joined {base factor : Factor} {on : Expr} {kind : JoinKind}
    (hbase : base.collect (.sites c) outer = []) (hfactor : factor.collect (.sites c) outer = [])
    (hon : d.Settles s c columns clauses
      (on.collect (.sites c) ([base.offer c, factor.offer c] :: outer)))
    (hapart : Apart [base.reference, factor.reference]) :
    d.Settles s c columns clauses
      (sourceCollect (.sites c) outer (some ((Source.of base).join kind factor on))) := by
  intro site hsite
  rw [Source.collect_eq, Source.partsCollect_join, Source.partsCollect_of, hbase, hfactor,
    List.nil_append, List.nil_append] at hsite
  rcases List.mem_cons.mp hsite with rfl | hin
  · exact Site.settled_clause.mpr fun _ => hapart
  · exact hon site hin

/-- An update over two tables or table variables, joined under names that differ, sets columns to
columns. -/
theorem settles_updateJoined {α : Type} (column : α → String) (source : α → String × String)
    {target : String} {items : List α} {base factor : Factor} {on : Expr} {kind : JoinKind}
    (hbase : base.collect (.sites c) outer = []) (hfactor : factor.collect (.sites c) outer = [])
    (hon : d.Settles s c columns clauses
      (on.collect (.sites c) ([base.offer c, factor.offer c] :: outer)))
    (hapart : Apart [base.reference, factor.reference])
    (hitems : columns → ∀ a ∈ items,
      Scopes.Resolve (source a).1 (source a).2 ([base.offer c, factor.offer c] :: outer)) :
    d.Settles s c columns clauses (Update.collect (.sites c) outer
      { target
        assignments := items.map fun a => .set (column a) (.columnOf (source a).1 (source a).2)
        source := some ((Source.of base).join kind factor on)
        filter := none }) := by
  rw [Update.collect]
  exact Draft.settles_append.mpr ⟨settles_columnAssignments column source hitems,
    Draft.settles_append.mpr ⟨settles_joined hbase hfactor hon hapart, Draft.settles_nil⟩⟩

namespace WrittenTable

/-- The rows of a table and the table itself are there, with the columns that its own statements read. -/
structure Supplied (c : Catalog) (t : WrittenTable) : Prop where
  index : indexColumn ∈ c.tableVars t.lookup
  parent : t.link.isSome = true → parentColumn ∈ c.tableVars t.lookup
  columns : ∀ w ∈ t.columns, w.column.name ∈ c.tableVars t.lookup
  key : ∀ column ∈ t.table.keyColumns, column.name ∈ c.tableVars t.lookup
  stored : ∀ column ∈ t.table.keyColumns, column.name ∈ c.tables t.table.name

/-- The captured keys of a table that has a key are there. -/
def Captured (c : Catalog) (t : WrittenTable) : Prop :=
  t.table.hasKey = true → ∀ name ∈ indexColumn :: t.table.keyColumns.map Column.name,
    name ∈ c.tableVars t.output

/-- The columns that a link joins are there: in the rows of either table, and in the tables that rows
are removed from or paired in. -/
def LinkSupplied (s : Schema) (c : Catalog) (parent child : WrittenTable) : Prop :=
  match child.link with
  | some (.parentHolds pairs) => ∀ pair ∈ pairs,
    s.columnName pair.parent ∈ c.tableVars parent.lookup ∧
      s.columnName pair.child ∈ c.tableVars child.lookup
  | some (.childHolds pairs) => ∀ pair ∈ pairs,
    s.columnName pair.parent ∈ c.tableVars parent.lookup ∧
      s.columnName pair.child ∈ c.tableVars child.lookup ∧
      s.columnName pair.child ∈ c.tables child.table.name
  | some (.junction junction toParent toChild) =>
    (∀ pair ∈ toParent, s.columnName pair.parent ∈ c.tableVars parent.lookup ∧
      s.columnName pair.child ∈ c.tables (s.table junction).name) ∧
    ∀ pair ∈ toChild, s.columnName pair.parent ∈ c.tables (s.table junction).name ∧
      s.columnName pair.child ∈ c.tableVars child.lookup
  | none => True

variable {t parent other : WrittenTable}

theorem settles_writeBack (hkey : t.table.hasKey = true) (h : columns → t.Supplied c)
    (hcaptured : columns → t.Captured c) :
    d.Settles s c columns clauses (t.writeBack.collect (.sites c) []) := by
  have hapart : Apart ["l", "o"] := by decide
  rw [writeBack, Statement.collect]
  refine settles_updateJoined Column.name (fun column => ("o", column.name)) (by simp) (by simp)
    ?_ hapart ?_
  · rw [Expr.collect_eq]
    refine Draft.settles_append.mpr ⟨settles_columnOf fun hasked => ?_,
      settles_columnOf fun hasked => ?_⟩
    · exact Scopes.resolve_right hapart (hcaptured hasked hkey _ List.mem_cons_self)
    · exact Scopes.resolve_left hapart (h hasked).index
  · intro hasked column hcolumn
    exact Scopes.resolve_right hapart
      (hcaptured hasked hkey _ (List.mem_cons_of_mem _ (List.mem_map_of_mem hcolumn)))

theorem settles_copyKeys {copied : List (ColumnId × ColumnId)} {own others : String}
    (hown : columns → own ∈ c.tableVars t.lookup) (hothers : columns → others ∈ c.tableVars other.lookup)
    (hcopied : columns → ∀ pair ∈ copied, s.columnName pair.2 ∈ c.tableVars other.lookup) :
    d.Settles s c columns clauses ((t.copyKeys s other copied own others).collect (.sites c) []) := by
  have hapart : Apart ["l", "o"] := by decide
  rw [copyKeys, Statement.collect]
  refine settles_updateJoined (fun pair : ColumnId × ColumnId => s.columnName pair.1)
    (fun pair => ("o", s.columnName pair.2)) (by simp) (by simp) ?_ hapart ?_
  · rw [Expr.collect_eq]
    exact Draft.settles_append.mpr
      ⟨settles_columnOf fun hasked => Scopes.resolve_left hapart (hown hasked),
        settles_columnOf fun hasked => Scopes.resolve_right hapart (hothers hasked)⟩
  · exact fun hasked pair hpair => Scopes.resolve_right hapart (hcopied hasked pair hpair)

theorem settles_updateRows {st : Statement} (hst : t.updateRows = some st)
    (h : columns → t.Supplied c) : d.Settles s c columns clauses (st.collect (.sites c) []) := by
  have hapart : Apart ["target", "source"] := by decide
  obtain ⟨_, rfl⟩ := updateRows_inv hst
  rw [Statement.collect]
  refine settles_updateJoined Column.name (fun column => ("source", column.name)) (by simp) (by simp)
    ?_ hapart ?_
  · refine settles_keyEq fun hasked column hcolumn => ⟨?_, ?_⟩
    · exact Scopes.resolve_left hapart ((h hasked).stored column hcolumn)
    · exact Scopes.resolve_right hapart ((h hasked).key column hcolumn)
  · intro hasked column hcolumn
    obtain ⟨w, hw, rfl⟩ := List.mem_map.mp (List.mem_of_mem_filter hcolumn)
    exact Scopes.resolve_right hapart ((h hasked).columns w hw)

theorem settles_mergeRows (upsert : Bool) (h : columns → t.Supplied c) :
    d.Settles s c columns clauses ((t.mergeRows upsert).collect (.sites c) []) := by
  have hapart : Apart ["target", "source"] := by decide
  rw [mergeRows, Statement.collect, Merge.collect]
  simp only [Factor.collect, Collector.sites_tableVar, List.nil_append, List.flatMap_nil,
    Option.elim_some]
  refine Draft.settles_append.mpr ⟨?_, Draft.settles_append.mpr ⟨?_, ?_⟩⟩
  · split
    · refine settles_keyEq fun hasked column hcolumn => ⟨?_, ?_⟩
      · exact Scopes.resolve_left hapart ((h hasked).stored column hcolumn)
      · exact Scopes.resolve_right hapart ((h hasked).key column hcolumn)
    · rw [Expr.collect_contradiction]
      exact Draft.settles_nil
  · refine settles_columnsOf "source" Column.name fun hasked column hcolumn => ?_
    obtain ⟨w, hw, rfl⟩ := List.mem_map.mp (List.mem_of_mem_filter hcolumn)
    exact Scopes.resolve_sole ((h hasked).columns w hw)
  · split
    · exact Draft.settles_nil
    · rw [Option.elim_some, OutputInto.collect, exprsCollect,
        exprsCollect_map fun _ => Expr.collect_inserted _, List.append_nil]
      exact settles_columnOf fun hasked => Scopes.resolve_right hapart (h hasked).index

theorem apart_withOwner (t parent : WrittenTable) : Apart (t.withOwner parent).aliases := by
  show Apart ["l", "p"]
  decide

/-- Rows are joined to their owners. -/
theorem parts_withOwner (hrows : columns → parentColumn ∈ c.tableVars t.lookup)
    (howners : columns → indexColumn ∈ c.tableVars parent.lookup) :
    d.Settles s c columns clauses ((t.withOwner parent).partsCollect (.sites c) outer) := by
  have hapart : Apart ["l", "p"] := by decide
  rw [withOwner, Source.partsCollect_join, Source.partsCollect_of, Factor.sites_tableVar,
    Factor.sites_tableVar, List.nil_append, List.nil_append, Expr.collect_eq]
  exact Draft.settles_append.mpr
    ⟨settles_columnOf fun hasked => Scopes.resolve_right hapart (howners hasked),
      settles_columnOf fun hasked => Scopes.resolve_left hapart (hrows hasked)⟩

end WrittenTable

namespace Planner

/-- A subquery over one table or table variable. -/
theorem settles_tied {factor : Factor} {tie : Expr} (negated : Bool)
    (hfactor : factor.collect (.sites c) scopes = [])
    (htie : d.Settles s c columns clauses (tie.collect (.sites c) ([factor.offer c] :: scopes))) :
    d.Settles s c columns clauses
      ((Expr.exists ((probe (.of factor)).restrict tie) negated).collect (.sites c) scopes) := by
  rw [Expr.collect]
  refine probe_settles (fun _ => ?_) ?_ htie
  · exact List.nodup_singleton _
  · rw [Source.partsCollect_of, hfactor]
    exact Draft.settles_nil

/-- Projecting columns that are read settles no less. -/
theorem settles_projected (aliasName : String) (name : JoinPair → String) {pairs : List JoinPair}
    {q : Query} (hq : d.Settles s c columns clauses (q.collect (.sites c) outer))
    (hpairs : columns → ∀ pair ∈ pairs, (q.scopes c outer).Resolve aliasName (name pair)) :
    (pairs.foldl (fun (q : Query) pair => q.project (.columnOf aliasName (name pair)) none) q).scopes
        c outer = q.scopes c outer ∧
      d.Settles s c columns clauses ((pairs.foldl (fun (q : Query) pair =>
        q.project (.columnOf aliasName (name pair)) none) q).collect (.sites c) outer) := by
  obtain ⟨hscopes, hsites⟩ := mem_sites_foldl c outer (fun (q : Query) (pair : JoinPair) =>
      q.project (.columnOf aliasName (name pair)) none)
    (fun pair scopes => (Expr.columnOf aliasName (name pair)).collect (.sites c) scopes) (fun _ _ => rfl)
    (fun _ _ _ h => (Query.mem_collect_project _ _ _).mp h) pairs q
  refine ⟨hscopes, fun site hsite => ?_⟩
  rcases hsites site hsite with hold | ⟨pair, hpair, hnew⟩
  · exact hq site hold
  · exact settles_columnOf (fun hasked => hpairs hasked pair hpair) site hnew

section Linked

variable {p : Planner} {t parent : WrittenTable} {junction : Table} {toParent toChild : List JoinPair}

/-- The columns by which a junction pairs the rows of two variables. -/
structure Junctioned (p : Planner) (c : Catalog) (t parent : WrittenTable) (junction : Table)
    (toParent toChild : List JoinPair) : Prop where
  rows : parentColumn ∈ c.tableVars t.lookup
  owners : indexColumn ∈ c.tableVars parent.lookup
  toParent : ∀ pair ∈ toParent, p.schema.columnName pair.parent ∈ c.tableVars parent.lookup ∧
    p.schema.columnName pair.child ∈ c.tables junction.name
  toChild : ∀ pair ∈ toChild, p.schema.columnName pair.parent ∈ c.tables junction.name ∧
    p.schema.columnName pair.child ∈ c.tableVars t.lookup

theorem junctioned_of_supplied {id : TableId} (ht : t.Supplied c) (hparent : parent.Supplied c)
    (hlink : WrittenTable.LinkSupplied p.schema c parent t)
    (hjunction : t.link = some (.junction id toParent toChild)) :
    Junctioned p c t parent (p.schema.table id) toParent toChild := by
  rw [WrittenTable.LinkSupplied, hjunction] at hlink
  refine ⟨ht.parent ?_, hparent.index, hlink.1, hlink.2⟩
  rw [hjunction]
  rfl

/-- The junction rows of a table and its owner; an upsert asks which of them are there. -/
theorem settles_insertJunction (upsert : Bool)
    (h : columns → Junctioned p c t parent junction toParent toChild) :
    d.Settles s c columns clauses
      ((p.insertJunction t parent junction toParent toChild upsert).collect (.sites c) []) := by
  have hapart : Apart ["l", "p"] := by decide
  have hbase : d.Settles s c columns clauses
      (Query.collect (.sites c) [] (.reading (t.withOwner parent))) :=
    reading_settles (fun _ => t.apart_withOwner parent) (WrittenTable.parts_withOwner
      (fun hasked => (h hasked).rows) (fun hasked => (h hasked).owners))
  obtain ⟨hscopes, howners⟩ := settles_projected "p" (fun pair => p.schema.columnName pair.parent)
    hbase fun hasked pair hpair =>
      Scopes.resolve_right hapart ((h hasked).toParent pair hpair).1
  obtain ⟨hscopes', hpairs⟩ := settles_projected "l" (fun pair => p.schema.columnName pair.child)
    howners fun hasked pair hpair => by
      rw [hscopes]
      exact Scopes.resolve_left hapart ((h hasked).toChild pair hpair).2
  rw [insertJunction, Statement.collect, InsertSource.collect]
  split
  · intro site hsite
    rcases (Query.mem_collect_restrict _ _).mp hsite with hold | hnew
    · exact hpairs site hold
    · rw [Query.inside_sites, hscopes', hscopes] at hnew
      have howner : sameName "j" "p" = false := by decide
      have hrow : sameName "j" "l" = false := by decide
      refine exists_settles (fun _ => ?_) ?_ (settles_pairsEq fun hasked pair hpair => ⟨?_, ?_⟩)
        (settles_pairsEq fun hasked pair hpair => ⟨?_, ?_⟩) site hnew
      · exact List.nodup_singleton _
      · rw [Source.partsCollect_of, Factor.collect]
        exact Draft.settles_nil
      · exact Scopes.resolve_outer (List.forall_mem_singleton.mpr howner)
          (Scopes.resolve_right hapart ((h hasked).toParent pair hpair).1)
      · exact Scopes.resolve_sole ((h hasked).toParent pair hpair).2
      · exact Scopes.resolve_sole ((h hasked).toChild pair hpair).1
      · exact Scopes.resolve_outer (List.forall_mem_singleton.mpr hrow)
          (Scopes.resolve_left hapart ((h hasked).toChild pair hpair).2)
  · exact hpairs

end Linked

section Tables

variable {p : Planner} {v : Tree.Visit WrittenTable} {st : Statement}

/-- The catalog supplies a visited table and those around it, and the links between them. -/
structure SuppliedAround (p : Planner) (c : Catalog) (v : Tree.Visit WrittenTable) : Prop where
  all : v.All (WrittenTable.Supplied c)
  captured : v.label.Captured c
  links : v.Tied (WrittenTable.LinkSupplied p.schema c)

theorem SuppliedAround.parent (h : p.SuppliedAround c v) {parent : WrittenTable}
    (hparent : v.parent? = some parent) : parent.Supplied c :=
  h.all.ancestors parent (List.mem_of_mem_head? hparent)

theorem SuppliedAround.junctioned (h : p.SuppliedAround c v) {parent : WrittenTable} {id : TableId}
    {toParent toChild : List JoinPair} (hparent : v.parent? = some parent)
    (hlink : v.label.link = some (.junction id toParent toChild)) :
    Junctioned p c v.label parent (p.schema.table id) toParent toChild :=
  junctioned_of_supplied h.all.label (h.parent hparent) (h.links.above parent hparent) hlink

theorem settles_copiedKeys (h : columns → p.SuppliedAround c v) (hst : st ∈ p.copiedKeys v) :
    d.Settles p.schema c columns clauses (st.collect (.sites c) []) := by
  rcases p.copiedKeys_cases hst with
    ⟨parent, pairs, hparent, hlink, rfl⟩ | ⟨child, pairs, hchild, hlink, rfl⟩
  · refine WrittenTable.settles_copyKeys
      (fun hasked => (h hasked).all.label.parent (by rw [hlink]; rfl))
      (fun hasked => ((h hasked).parent hparent).index) fun hasked copied hcopied => ?_
    obtain ⟨pair, hpair, rfl⟩ := List.mem_map.mp hcopied
    have hlinks := (h hasked).links.above parent hparent
    rw [WrittenTable.LinkSupplied, hlink] at hlinks
    exact (hlinks pair hpair).1
  · refine WrittenTable.settles_copyKeys (fun hasked => (h hasked).all.label.index)
      (fun hasked => ((h hasked).all.children child hchild).parent (by rw [hlink]; rfl))
      fun hasked copied hcopied => ?_
    obtain ⟨pair, hpair, rfl⟩ := List.mem_map.mp hcopied
    have hlinks := (h hasked).links.below child hchild
    rw [WrittenTable.LinkSupplied, hlink] at hlinks
    exact (hlinks pair hpair).2

theorem settles_writeTable (upsert : Bool) (h : columns → p.SuppliedAround c v)
    (hst : st ∈ p.writeTable upsert v) :
    d.Settles p.schema c columns clauses (st.collect (.sites c) []) := by
  rcases p.writeTable_cases hst with hcopied | rfl | ⟨hkey, rfl⟩ | hupdate |
    ⟨parent, junction, toParent, toChild, hparent, hlink, rfl⟩
  · exact settles_copiedKeys h hcopied
  · exact WrittenTable.settles_mergeRows _ fun hasked => (h hasked).all.label
  · exact WrittenTable.settles_writeBack hkey (fun hasked => (h hasked).all.label)
      fun hasked => (h hasked).captured
  · exact WrittenTable.settles_updateRows hupdate fun hasked => (h hasked).all.label
  · exact settles_insertJunction _ fun hasked => (h hasked).junctioned hparent hlink

theorem settles_removeStale (h : columns → p.SuppliedAround c v) (hst : st ∈ p.removeStale v) :
    d.Settles p.schema c columns clauses (st.collect (.sites c) []) := by
  have hnames : sameName "p" "t" = false ∧ sameName "l" "t" = false ∧ sameName "p" "j" = false ∧
      sameName "l" "j" = false := by decide
  obtain ⟨howner, hrow, howner', hrow'⟩ := hnames
  rcases p.removeStale_cases hst with
    ⟨parent, pairs, hparent, hlink, rfl⟩ | ⟨parent, id, toParent, toChild, hparent, hlink, rfl⟩
  · have hpairs : columns → ∀ pair ∈ pairs,
        p.schema.columnName pair.parent ∈ c.tableVars parent.lookup ∧
          p.schema.columnName pair.child ∈ c.tables v.label.table.name := by
      intro hasked
      have hlinks := (h hasked).links.above parent hparent
      rw [WrittenTable.LinkSupplied, hlink] at hlinks
      exact fun pair hpair => ⟨(hlinks pair hpair).1, (hlinks pair hpair).2.2⟩
    rw [Statement.collect, Factor.collect, List.nil_append, optionalCollect, Expr.collect_and]
    refine Draft.settles_append.mpr ⟨settles_tied false (Factor.sites_tableVar _ _) ?_,
      settles_tied true (Factor.sites_tableVar _ _) ?_⟩
    · refine settles_pairsEq fun hasked pair hpair => ⟨?_, ?_⟩
      · exact Scopes.resolve_sole (hpairs hasked pair hpair).1
      · exact Scopes.resolve_outer (List.forall_mem_singleton.mpr howner)
          (Scopes.resolve_sole (hpairs hasked pair hpair).2)
    · refine settles_keyEq fun hasked column hcolumn => ⟨?_, ?_⟩
      · exact Scopes.resolve_sole ((h hasked).all.label.key column hcolumn)
      · exact Scopes.resolve_outer (List.forall_mem_singleton.mpr hrow)
          (Scopes.resolve_sole ((h hasked).all.label.stored column hcolumn))
  · have hjunction := fun hasked => (h hasked).junctioned hparent hlink
    have hapart : Apart ["l", "p"] := by decide
    have hothers : ∀ offer ∈ [(⟨"l", c.tableVars v.label.lookup⟩ : Offer),
        ⟨"p", c.tableVars parent.lookup⟩], sameName offer.aliasName "j" = false :=
      List.forall_mem_cons.mpr ⟨hrow', List.forall_mem_singleton.mpr howner'⟩
    rw [Statement.collect, Factor.collect, List.nil_append, optionalCollect, Expr.collect_and]
    refine Draft.settles_append.mpr ⟨settles_tied false (Factor.sites_tableVar _ _) ?_,
      exists_settles (fun _ => v.label.apart_withOwner _) (WrittenTable.parts_withOwner
        (fun hasked => (hjunction hasked).rows) (fun hasked => (hjunction hasked).owners)) ?_ ?_⟩
    · refine settles_pairsEq fun hasked pair hpair => ⟨?_, ?_⟩
      · exact Scopes.resolve_sole ((hjunction hasked).toParent pair hpair).1
      · exact Scopes.resolve_outer (List.forall_mem_singleton.mpr howner')
          (Scopes.resolve_sole ((hjunction hasked).toParent pair hpair).2)
    · refine settles_pairsEq fun hasked pair hpair => ⟨?_, ?_⟩
      · exact Scopes.resolve_right hapart ((hjunction hasked).toParent pair hpair).1
      · exact Scopes.resolve_outer hothers
          (Scopes.resolve_sole ((hjunction hasked).toParent pair hpair).2)
    · refine settles_pairsEq fun hasked pair hpair => ⟨?_, ?_⟩
      · exact Scopes.resolve_outer hothers
          (Scopes.resolve_sole ((hjunction hasked).toChild pair hpair).1)
      · exact Scopes.resolve_left hapart ((hjunction hasked).toChild pair hpair).2

end Tables

/-- Joining relations leaves the row source at the head where it is. -/
theorem base_joinAll (p : Planner) (kind : JoinKind) (accepts : Tree.Visit Relation → Bool)
    (vs : List (Tree.Visit Relation)) (source : Source) :
    (p.joinAll kind accepts source vs).base = source.base := by
  rw [joinAll]
  generalize vs.filter (fun v => v.label.isJoined && accepts v) = taken
  induction taken generalizing source with
  | nil => rfl
  | cons v rest ih =>
    rw [List.foldl_cons, ih]
    rfl

/-- Written rows are selected back through relations, none of them named like the variable. -/
theorem settles_returning {p : Planner} (hs : p.schema.Sound) (hkeyed : p.schema.Keyed)
    (hc : c.Knows p.schema) (htable : p.table ∈ p.schema.tables) {output : FieldTree} {query : Query}
    {relations : Relations} (h : p.returning output = .ok (query, relations))
    (hrows : columns → ∀ name ∈ indexColumn :: p.table.keyColumns.map Column.name,
      name ∈ c.tableVars "lookup0")
    (hother : columns ∨ clauses → ∀ r ∈ relations.all, sameName "__lookup" r.aliasName = false) :
    d.Settles p.schema c columns clauses (query.collect (.sites c) []) := by
  unfold returning at h
  obtain ⟨found, hfound, hpure⟩ := except_bind_ok.mp h
  cases hpure
  have hwired := Resolver.resolve_wired hs hkeyed htable hfound
  let lead := (Source.of (.tableVar "lookup0" (some "__lookup"))).join .inner
    (p.factor relations.root) (keyEq "__lookup" relations.root.aliasName p.table.keyColumns)
  let joined := p.joinAll .left (fun _ => true) lead relations.visits
  have hlead : Joined p c columns clauses d [] relations (fun _ => true) [relations.rootVisit] lead :=
    joined_lead (.tableVar "lookup0" (some "__lookup")) hs hc htable hwired
      (fun hasked => hother (Or.inl hasked))
      (fun hasked column hcolumn =>
        hrows hasked _ (List.mem_cons_of_mem _ (List.mem_map_of_mem hcolumn)))
      (by
        rw [Factor.collect]
        exact Draft.settles_nil)
  have hjoined := hlead.all hs hc htable hwired (fun _ _ _ _ => rfl) .left
  have hapart : columns ∨ clauses → Apart joined.aliases := fun hasked =>
    apart_joinAll hwired .left (fun _ => true) ["__lookup"] rfl (List.nodup_singleton _)
      (fun name hname => List.mem_singleton.mp hname ▸ hother hasked)
  have hbase := projectAll_settles hs htable hwired
    (reading_settles (fun hasked => hapart (Or.inr hasked)) hjoined.parts)
    fun hasked => hjoined.reads_all hasked
  intro site hsite
  rcases (Query.mem_collect_ordered _ _ hsite).resolve_left List.not_mem_nil with hold | hnew
  · exact hbase site hold
  · rw [orderItemsCollect, orderItemsCollect, List.append_nil, Query.inside_sites,
      (p.sites_projectAll _ relations).1, Query.scopes_reading] at hnew
    refine settles_columnOf (fun hasked => ?_) site hnew
    have hnames : Apart (joined.offers c |>.map Offer.aliasName) :=
      Source.aliases_eq c joined ▸ hapart (Or.inl hasked)
    have hhead : (⟨"__lookup", c.tableVars "lookup0"⟩ : Offer) ∈ joined.offers c := by
      rw [Source.offers, Source.factors, p.base_joinAll]
      exact List.mem_cons_self
    exact Scopes.resolve_of_apart hnames hhead (hrows hasked _ List.mem_cons_self)

theorem fillLookup_settles {p : Planner} {t : WrittenTable} {entity : Path} {st : Statement}
    (hrun : (fillLookup t entity).run d = .ok (st, d')) :
    d'.Settles p.schema c columns clauses (st.collect (.sites c) []) := by
  obtain ⟨base, between, _, hole, hhole, rfl⟩ := fillLookup_inv hrun
  rw [Statement.collect, InsertSource.collect]
  exact rule_settles Draft.settles_nil hhole

theorem fillLookups_settle {p : Planner} (hd : d.Sound) {tables : List WrittenTable} {entity : Path}
    {filled : Batch} (hrun : (tables.mapM fun t => fillLookup t entity).run d = .ok (filled, d')) :
    ∀ st ∈ filled, d'.Settles p.schema c columns clauses (st.collect (.sites c) []) := by
  induction tables generalizing d filled with
  | nil =>
    rw [List.mapM_nil, run_pure_ok] at hrun
    obtain ⟨rfl, rfl⟩ := hrun
    exact nofun
  | cons t rest ih =>
    rw [List.mapM_cons] at hrun
    simp only [run_bind_ok, run_pure_ok] at hrun
    obtain ⟨st, between, hst, others, after, hothers, rfl, rfl⟩ := hrun
    have hsound := (fillLookup_extends hd hst).1.sound
    have hextends := (mapM_extends (fun t d d' st hd hrun => fillLookup_extends hd hrun)
      hsound hothers).1
    exact List.forall_mem_cons.mpr
      ⟨hextends.settles (fillLookup_settles hst), ih hsound hothers⟩

/-- The catalog supplies all tables of a tree and the links between them. -/
structure SuppliedTree (p : Planner) (c : Catalog) (tree : WrittenTree) : Prop where
  tables : ∀ t ∈ tree.preorder, t.Supplied c ∧ t.Captured c
  links : tree.Edges (WrittenTable.LinkSupplied p.schema c)

theorem SuppliedTree.around {p : Planner} {tree : WrittenTree} (h : p.SuppliedTree c tree)
    {v : Tree.Visit WrittenTable} (hv : v ∈ tree.visits) : p.SuppliedAround c v where
  all := Tree.all_of_visitsBelow tree nofun (fun t ht => (h.tables t ht).1) v hv
  captured := (Tree.all_of_visitsBelow tree nofun (fun t ht => (h.tables t ht).2) v hv).label
  links := Tree.Edges.tied tree nofun h.links v hv

/-- A write that declares its variables reads them, where the catalog supplies what it reads. -/
theorem write_settles {p : Planner} (hs : p.schema.Sound) (hkeyed : p.schema.Keyed)
    (hc : c.Knows p.schema) (htable : p.table ∈ p.schema.tables) (hd : d.Sound) {batch : Batch}
    {relations : Option Relations} (hrun : p.write.run d = .ok ((batch, relations), d'))
    (hsupplied : columns → ∀ entity tree, p.entity = .ok entity → p.writtenTree entity = .ok tree →
      (∀ st ∈ declarations tree, st ∈ batch) → p.SuppliedTree c tree)
    (hother : columns ∨ clauses → ∀ found, relations = some found →
      ∀ r ∈ found.all, sameName "__lookup" r.aliasName = false) :
    ∀ st ∈ batch, d'.Settles p.schema c columns clauses (st.collect (.sites c) []) := by
  obtain ⟨entity, tree, hentity, htree, hplain | ⟨filled, hfilled, hdeclared, hbatch⟩⟩ :=
    p.write_cases hrun
  · obtain ⟨names, between, _, hole, hhole, rfl⟩ := plainInsert_inv hplain
    intro st hst
    rw [List.mem_singleton.mp hst, Statement.collect, InsertSource.collect]
    exact rule_settles Draft.settles_nil hhole
  · have htables := fun hasked => hsupplied hasked entity tree hentity htree hdeclared
    have hlaid := writtenTree_laid hs hkeyed htable htree
    intro st hst
    rcases hbatch st hst with hmem | hwritten
    · exact fillLookups_settle hd hfilled st hmem
    · cases hwritten with
      | lookup _ | output _ => exact Draft.settles_nil
      | table hv hst =>
        exact settles_writeTable _
          (fun hasked => (htables hasked).around ((writeOrder_perm tree []).subset hv)) hst
      | stale hv hst => exact settles_removeStale (fun hasked => (htables hasked).around hv) hst
      | returned hquery hrelations =>
        refine settles_returning hs hkeyed hc htable hquery (fun hasked => ?_) fun hasked =>
          hother hasked _ hrelations
        have hroot := ((htables hasked).tables _ (Tree.label_mem_preorder tree)).1
        rw [← hlaid.lookup_root, ← hlaid.table]
        exact List.forall_mem_cons.mpr ⟨hroot.index, List.forall_mem_map.mpr hroot.key⟩

/-- The conditions and assignments of a single entity read columns of the target alone. -/
theorem entityColumns_settle {p : Planner} {entity : Path} {written : List WrittenColumn}
    {assignments : List Assignment} {filters : List Expr}
    (hrun : (p.entityColumns entity written).run d = .ok ((assignments, filters), d')) :
    (∀ scopes : Scopes,
      d'.Settles s c columns clauses (assignments.flatMap (Assignment.collect (.sites c) scopes))) ∧
    ∀ scopes : Scopes, (columns → ∀ w ∈ written, scopes.Resolve p.table.name w.column.name) →
      d'.Settles s c columns clauses (filters.flatMap (Expr.collect (.sites c) scopes)) := by
  induction written generalizing d d' assignments filters with
  | nil =>
    simp only [entityColumns, run_pure_ok, Prod.mk.injEq] at hrun
    obtain ⟨⟨rfl, rfl⟩, rfl⟩ := hrun
    exact ⟨fun _ => Draft.settles_nil, fun _ _ => Draft.settles_nil⟩
  | cons first rest ih =>
    obtain ⟨column, source⟩ := first
    cases source with
    | none =>
      obtain ⟨hset, hkey⟩ := ih hrun
      exact ⟨hset, fun scopes hreads => hkey scopes fun hasked w hw =>
        hreads hasked w (List.mem_cons_of_mem _ hw)⟩
    | some source =>
      simp only [entityColumns, run_bind_ok] at hrun
      obtain ⟨name, between, _, ⟨others, conditions⟩, after, hothers, hlast⟩ := hrun
      obtain ⟨hset, hkey⟩ := ih hothers
      have hrest : ∀ scopes : Scopes, (columns → ∀ w ∈ ⟨column, some source⟩ :: rest,
          scopes.Resolve p.table.name w.column.name) →
            after.Settles s c columns clauses (conditions.flatMap (Expr.collect (.sites c) scopes)) :=
        fun scopes hreads => hkey scopes fun hasked w hw =>
          hreads hasked w (List.mem_cons_of_mem _ hw)
      split at hlast
      · simp only [run_pure_ok, Prod.mk.injEq] at hlast
        obtain ⟨⟨rfl, rfl⟩, rfl⟩ := hlast
        refine ⟨hset, fun scopes hreads => ?_⟩
        rw [List.flatMap_cons, Expr.collect_eq, Expr.collect, Collector.sites_param, List.append_nil]
        exact Draft.settles_append.mpr ⟨settles_columnOf fun hasked =>
          hreads hasked _ List.mem_cons_self, hrest scopes hreads⟩
      · split at hlast
        · simp only [run_pure_ok, Prod.mk.injEq] at hlast
          obtain ⟨⟨rfl, rfl⟩, rfl⟩ := hlast
          exact ⟨hset, hrest⟩
        · simp only [run_pure_ok, Prod.mk.injEq] at hlast
          obtain ⟨⟨rfl, rfl⟩, rfl⟩ := hlast
          refine ⟨fun scopes => ?_, hrest⟩
          rw [List.flatMap_cons, Assignment.collect, Expr.collect, Collector.sites_param,
            List.nil_append]
          exact hset scopes

theorem updateByEntity_settles {p : Planner} (hs : p.schema.Sound) (hkeyed : p.schema.Keyed)
    (hc : c.Knows p.schema) (htable : p.table ∈ p.schema.tables) {batch : Batch}
    (hrun : p.updateByEntity.run d = .ok (batch, d'))
    (hsupplied : columns → ∀ entity tree, p.entity = .ok entity → p.writtenTree entity = .ok tree →
      (updatedTable tree.label).declareLookup ∈ batch → (updatedTable tree.label).Supplied c) :
    ∀ st ∈ batch, d'.Settles p.schema c columns clauses (st.collect (.sites c) []) := by
  obtain ⟨entity, tree, hentity, htree, _, ⟨fill, update, _, hfill, hupdate, rfl⟩ |
    ⟨assignments, filters, _, hcolumns, _, rfl⟩⟩ := p.updateByEntity_cases hrun
  · intro st hst
    simp only [List.mem_cons, List.not_mem_nil, or_false] at hst
    rcases hst with rfl | rfl | rfl
    · exact Draft.settles_nil
    · exact fillLookup_settles hfill
    · exact WrittenTable.settles_updateRows hupdate fun hasked =>
        hsupplied hasked entity tree hentity htree List.mem_cons_self
  · have hlaid := writtenTree_laid hs hkeyed htable htree
    have howned := (hlaid.complete _ (Tree.label_mem_preorder tree)).owned.owned
    rw [hlaid.table] at howned
    have hkept : ∀ w ∈ (updatedTable tree.label).columns, w.column ∈ p.table.columns :=
      fun w hw => howned w (List.mem_of_mem_filter hw)
    obtain ⟨hset, hkey⟩ := entityColumns_settle hcolumns
    exact updateTarget_settles hc htable hset fun scopes hreads =>
      hkey scopes fun hasked w hw => hreads hasked _ (hkept w hw)

/-- The statements whose columns are asked about: those that read the target's rows by filters. -/
def ByFilter (p : Planner) : Prop :=
  p.operation = .select ∨ p.operation = .delete ∨
    p.operation = .update ∧ p.arguments.set ≠ []

/-- No name that planning makes up is that of a relation: neither that of a subquery's table, where
columns are asked about, nor that of the row source at the head of a window or of a returning select;
and where a window asks for rows of a collection, nothing is embedded on the way there. -/
structure Unmistaken (p : Planner) (columns clauses : Prop) (relations : Option Relations) :
    Prop where
  target : columns → ∀ k, sameName (existsAlias k) p.table.name = false
  exists_ : columns → ∀ found, relations = some found → ∀ r ∈ found.all, ∀ k,
    sameName (existsAlias k) r.aliasName = false
  window : columns ∨ clauses → p.arguments.isPaged = true → ∀ found, relations = some found →
    found.hasJoins = true → ∀ r ∈ found.all, sameName p.windowAlias r.aliasName = false
  lookup : clauses → p.operation ≠ .select → ∀ found, relations = some found →
    ∀ r ∈ found.all, sameName "__lookup" r.aliasName = false
  flat : clauses → p.arguments.isPaged = true → ∀ found, relations = some found →
    ∀ filters between, p.Selects filters found between → FlatTo found filters

/-- The variables of an operation that writes entities have what its statements read, once they are
declared. -/
def Provides (p : Planner) (c : Catalog) (batch : Batch) : Prop :=
  ∀ entity tree, p.entity = .ok entity → p.writtenTree entity = .ok tree →
    ((∀ st ∈ declarations tree, st ∈ batch) → p.operation ≠ .update → p.SuppliedTree c tree) ∧
    ((updatedTable tree.label).declareLookup ∈ batch → (updatedTable tree.label).Supplied c)

/-- What writes entities is one of two plans, by the operation. -/
theorem statements_cases {p : Planner} {batch : Batch} {relations : Option Relations}
    (hrun : (Plan.statements p).run default = .ok ((batch, relations), d')) (h : ¬p.ByFilter) :
    (p.operation ≠ .update ∧ p.write.run default = .ok ((batch, relations), d')) ∨
      p.updateByEntity.run default = .ok (batch, d') := by
  cases stated hrun with
  | select hselect => exact absurd (Or.inl hselect) h
  | write hoperation hwrite =>
    refine Or.inl ⟨?_, hwrite⟩
    rintro hupdate
    simp [hupdate] at hoperation
  | update hupdate hchange =>
    rcases update_cases hchange with ⟨_, hentity⟩ | ⟨hset, _⟩
    · exact Or.inr hentity
    · exact absurd (Or.inr (Or.inr ⟨hupdate, hset⟩)) h
  | delete hdelete => exact absurd (Or.inr (Or.inl hdelete)) h

/-- Writes of entities read what their variables have. -/
theorem entities_settle {p : Planner} (hs : p.schema.Sound) (hkeyed : p.schema.Keyed)
    (hc : c.Knows p.schema) (htable : p.table ∈ p.schema.tables) {batch : Batch}
    {relations : Option Relations}
    (hrun : (Plan.statements p).run default = .ok ((batch, relations), d')) (h : ¬p.ByFilter)
    (hprovides : columns → p.Provides c batch)
    (hother : columns ∨ clauses → ∀ found, relations = some found →
      ∀ r ∈ found.all, sameName "__lookup" r.aliasName = false) :
    ∀ st ∈ batch, d'.Settles p.schema c columns clauses (st.collect (.sites c) []) := by
  rcases statements_cases hrun h with ⟨hnot, hwrite⟩ | hupdate
  · refine write_settles hs hkeyed hc htable Draft.sound_default hwrite ?_ hother
    exact fun hasked entity tree hentity htree hdeclared =>
      (hprovides hasked entity tree hentity htree).1 hdeclared hnot
  · exact updateByEntity_settles hs hkeyed hc htable hupdate fun hasked entity tree hentity htree =>
      (hprovides hasked entity tree hentity htree).2

theorem statements_settle {p : Planner} (hs : p.schema.Sound) (hkeyed : p.schema.Keyed)
    (hc : c.Knows p.schema) (htable : p.table ∈ p.schema.tables) {columns : Prop} {batch : Batch}
    {relations : Option Relations}
    (hrun : (Plan.statements p).run default = .ok ((batch, relations), d'))
    (hfilter : columns → p.ByFilter) (h : p.Unmistaken columns clauses relations) :
    ∀ st ∈ batch, d'.Settles p.schema c columns clauses (st.collect (.sites c) []) := by
  have hd : (default : Draft).Sound := Draft.sound_default
  by_cases hby : p.ByFilter
  · rcases hby with hselect | hdelete | ⟨hupdate, hset⟩
    · obtain ⟨query, found, hquery, rfl, rfl⟩ := select_of_statements hrun hselect
      intro st hst
      rw [List.mem_singleton.mp hst, Statement.collect]
      exact select_settles hs hkeyed hc htable hquery
        (fun hasked r hr k _ => h.exists_ hasked _ rfl r hr k)
        (fun hasked hpaged hjoins => h.window hasked hpaged _ rfl hjoins)
        (fun hasked hpaged => h.flat hasked hpaged _ rfl)
    · obtain ⟨hdeletes, rfl⟩ := delete_of_statements hrun hdelete
      exact delete_settles hs hkeyed hc htable hd hdeletes fun hasked k _ => h.target hasked k
    · obtain ⟨hchange, rfl⟩ := update_of_statements hrun hupdate
      have hchange := updateBySet_of_update hchange hset
      exact updateBySet_settles hs hkeyed hc htable hd hchange fun hasked k _ => h.target hasked k
  · obtain rfl : columns = False := eq_false fun hasked => hby (hfilter hasked)
    have hselect : p.operation ≠ .select := fun hselect => hby (Or.inl hselect)
    exact entities_settle hs hkeyed hc htable hrun hby False.elim fun hasked found hfound =>
      h.lookup (hasked.resolve_left id) hselect found hfound

end Planner

end ShapeSql
