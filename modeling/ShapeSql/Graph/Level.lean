import ShapeSql.Graph.Entity
import ShapeSql.Relation.Basic
import ShapeSql.Rows

/-!
Nesting levels: one for each place of the output with a table. Junctions and hops have no level of
their own, and the columns of an embedded shape belong to the level around it.
-/

namespace ShapeSql

/-- A column of a level: its name there, and its name in the result set. -/
structure LevelColumn where
  name : String
  source : String
  deriving DecidableEq, Repr, Inhabited

structure Level where
  /-- The way from the level above. -/
  relative : Path
  columns : List LevelColumn
  /-- The names of the columns that identify a row. -/
  key : List String
  deriving DecidableEq, Repr, Inhabited

abbrev LevelTree := Tree Level

namespace Level

/-- A level, identified by all of its columns where its table has no key. -/
def ofColumns (relative : Path) (columns : List LevelColumn) (key : List String) : Level :=
  ⟨relative, columns, if key.isEmpty then columns.map LevelColumn.name else key⟩

/-- The columns that a relation adds to the level at `owner`. -/
def columnsOf (owner : Path) (r : Relation) : List LevelColumn :=
  r.columns.map fun c =>
    ⟨((r.path.relativeTo owner).join c.name).display, r.columnAlias c⟩

/-- The values a row has at this level. -/
def values (level : Level) (columns : List String) (row : List Value) : Record :=
  Record.ofMembers (level.columns.map fun c => (c.name, Rows.cell columns row c.source))

/-- The key of a row with these values. -/
def keyOf (level : Level) (values : Record) : RowKey :=
  ⟨level.key.map fun name => (Record.get? values name).getD .null⟩

end Level

namespace LevelTree

/-- What relations add to the level around them: columns, and levels below it. -/
structure Share where
  columns : List LevelColumn
  levels : List LevelTree

def Share.append (a b : Share) : Share := ⟨a.columns ++ b.columns, a.levels ++ b.levels⟩

mutual

/-- The share of a relation in the level at `owner`. -/
def share (s : Schema) (owner : Path) : RelationTree → Share
  | .node r kids =>
    -- Only a place that the output names has a level; others pass on what is below them.
    if r.isBound then
      let own := shares s r.path kids
      let columns := Level.columnsOf r.path r ++ own.columns
      ⟨[], [.node (.ofColumns (r.path.relativeTo owner) columns (r.keyNames s)) own.levels]⟩
    else
      .append ⟨Level.columnsOf owner r, []⟩ (shares s owner kids)

def shares (s : Schema) (owner : Path) : List RelationTree → Share
  | [] => ⟨[], []⟩
  | t :: ts => .append (share s owner t) (shares s owner ts)

end

/-- The levels of relations, that of the root table on top. -/
def ofRelations (s : Schema) (relations : Relations) : LevelTree :=
  (share s .root relations.tree).levels.headD default

/-- The result columns that the levels read, level by level. -/
def sources (t : LevelTree) : List String :=
  t.preorder.flatMap fun level => level.columns.map LevelColumn.source

end LevelTree
end ShapeSql
