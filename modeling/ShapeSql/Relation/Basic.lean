import ShapeSql.Path
import ShapeSql.Schema.Basic
import ShapeSql.Tree

/-!
Relations: the tables that a query reads, bound to the places of its output. The root is the target
table; below it stand the tables of nested fields with the column equalities that join them. Tables
that only lead to another one, junctions and hops, do not show in the output, and an embedded shape
is a place without a table of its own.
-/

namespace ShapeSql

/-- The equality of a column of the parent and one of the child. -/
structure JoinPair where
  parent : ColumnId
  child : ColumnId
  deriving DecidableEq, Repr, Inhabited

inductive RelationKind where
  | root
  | navigation (many : Bool)
  | junction
  | hop
  | embedded
  deriving DecidableEq, Repr, Inhabited

/-- A column read for the output, or only to tell rows apart. -/
structure ProjectedColumn where
  column : ColumnId
  name : String
  anchor : Bool
  deriving DecidableEq, Repr, Inhabited

structure Relation where
  id : Nat
  table : TableId
  name : String
  path : Path
  columns : List ProjectedColumn
  join : List JoinPair
  /-- The name of the row source, shared by an embedded place with its parent. -/
  aliasName : String
  kind : RelationKind
  deriving DecidableEq, Repr, Inhabited

namespace Relation

/-- Junctions and hops do not surface in the output. -/
def isTransparent (r : Relation) : Bool :=
  match r.kind with
  | .junction | .hop => true
  | _ => false

def isEmbedded (r : Relation) : Bool :=
  match r.kind with
  | .embedded => true
  | _ => false

/-- A navigation or the root: a place of the output with a table. -/
def isBound (r : Relation) : Bool := !r.isTransparent && !r.isEmbedded

/-- At most one row for each row of the parent. -/
def isToOne (r : Relation) : Bool :=
  match r.kind with
  | .root | .embedded | .navigation false => true
  | _ => false

/-- A table of its own after the root's. -/
def isJoined (r : Relation) : Bool :=
  match r.kind with
  | .root | .embedded => false
  | _ => true

def column? (r : Relation) (id : ColumnId) : Option ProjectedColumn :=
  r.columns.find? fun c => c.column == id

/-- The name of a column in the result set: its dotted output path. -/
def columnAlias (r : Relation) (c : ProjectedColumn) : String :=
  if r.path.isRoot then c.name else r.path.display ++ "." ++ c.name

/-- Adds a column under a name, unless the name is taken. -/
def project (columns : List ProjectedColumn) (column : ColumnId) (name : String) :
    List ProjectedColumn :=
  if columns.any fun c => c.name == name then columns else columns ++ [⟨column, name, false⟩]

/-- Adds one key column, under a marked name if a field has its name. -/
def anchorColumn (s : Schema) (columns : List ProjectedColumn) (key : ColumnId) :
    List ProjectedColumn :=
  if columns.any fun c => c.column == key then columns
  else
    let name := s.columnName key
    let free := if columns.any fun c => c.name == name then "__pk_" ++ name else name
    columns ++ [⟨key, free, true⟩]

/-- Projects the primary key of a place with a table. -/
def anchorKey (s : Schema) (r : Relation) : Relation :=
  if r.isBound then
    { r with columns := (s.table r.table).primaryKey.foldl (anchorColumn s) r.columns }
  else r

/-- The names of the projected key columns, in key order. -/
def keyNames (s : Schema) (r : Relation) : List String :=
  (s.table r.table).primaryKey.filterMap fun key => (r.column? key).map ProjectedColumn.name

end Relation

abbrev RelationTree := Tree Relation

/-- What new relations are given: names not in use yet, compared in small letters, and numbers. -/
structure Supply where
  aliases : List String
  next : Nat
  deriving Repr, Inhabited

namespace Supply

/-- The name, with a number appended if it is in use. -/
def freeAlias (s : Supply) (desired : String) : String :=
  firstFree (fun name => !s.aliases.contains (lowerAscii name)) desired
    (fun n => s!"{desired}_{n}") (s.aliases.length + 1)

/-- A new relation under `parentAlias`, which it shares when it desires no name. -/
def relation (s : Supply) (table : TableId) (name : String) (path : Path) (join : List JoinPair)
    (kind : RelationKind) (desired : Option String) (parentAlias : String) : Relation × Supply :=
  match desired with
  | none =>
    (⟨s.next, table, name, path, [], join, parentAlias, kind⟩, { s with next := s.next + 1 })
  | some desired =>
    let aliasName := s.freeAlias desired
    (⟨s.next, table, name, path, [], join, aliasName, kind⟩,
      ⟨lowerAscii aliasName :: s.aliases, s.next + 1⟩)

end Supply

structure Relations where
  tree : RelationTree
  supply : Supply
  deriving Inhabited

namespace Relations

/-- Only the root table. -/
def ofTable (table : Table) : Relations where
  tree := .leaf ⟨0, table.id, "", .root, [], [], table.name, .root⟩
  supply := ⟨[lowerAscii table.name], 1⟩

def root (r : Relations) : Relation := r.tree.label

def visits (r : Relations) : List (Tree.Visit Relation) := r.tree.visits

/-- The relations in pre-order, parents before children. -/
def all (r : Relations) : List Relation := r.tree.preorder

def visit? (r : Relations) (id : Nat) : Option (Tree.Visit Relation) :=
  r.visits.find? fun v => v.label.id == id

/-- Every step from the root is to-one. -/
def reachedToOne (v : Tree.Visit Relation) : Bool := v.lineage.all Relation.isToOne

/-- Whether every step from the root to the relation of this number is to-one. -/
def isToOne (r : Relations) (id : Nat) : Bool :=
  match r.visit? id with
  | some v => reachedToOne v
  | none => true

/-- Some table besides the root is joined. -/
def hasJoins (r : Relations) : Bool := r.all.any Relation.isJoined

mutual

/-- The place of this name that a tree shows: its root, or one below a junction or hop. -/
def findShown (name : String) : RelationTree → Option RelationTree
  | .node r kids =>
    if r.isTransparent then findChild name kids
    else if sameName r.name name then some (.node r kids)
    else none

/-- The first child of this name. -/
def findChild (name : String) : List RelationTree → Option RelationTree
  | [] => none
  | t :: ts =>
    match findShown name t with
    | some found => some found
    | none => findChild name ts

end

def findSteps : RelationTree → List String → Option RelationTree
  | t, [] => some t
  | t, step :: steps =>
    match findChild step t.children with
    | none => none
    | some child => findSteps child steps

/-- The place at an output path. -/
def find? (r : Relations) (path : Path) : Option Relation :=
  (findSteps r.tree path.steps).map Tree.label

/-- Projects the primary key of every place with a table. -/
def anchorKeys (s : Schema) (r : Relations) : Relations :=
  { r with tree := r.tree.map (Relation.anchorKey s) }

/-- Replaces the mask of a path, which keeps its place, or adds it. -/
def putMask (path : Path) (names : List String) :
    List (Path × List String) → List (Path × List String)
  | [] => [(path, names)]
  | (other, old) :: rest =>
    if other = path then (path, names) :: rest else (other, old) :: putMask path names rest

/-- For every output path with a table the names of the projected key columns. -/
def keyMasks (s : Schema) (r : Relations) : List (Path × List String) :=
  (r.all.filter Relation.isBound).foldl (fun masks n => putMask n.path (n.keyNames s) masks) []

end Relations
end ShapeSql
