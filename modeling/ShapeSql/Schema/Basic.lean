import ShapeSql.Name

/-!
The relational schema: tables with their columns, primary keys and foreign keys. Tables and columns
are named by their positions, so that a key pair is data and not a reference.
-/

namespace ShapeSql

/-- Column types; an integer is given by its size in bytes. -/
inductive DbType where
  | boolean
  | integer (bytes : UInt8)
  | float
  | text
  | varChar (length : UInt64)
  | binary
  | uuid
  | dateTime
  | custom (name : String)
  deriving DecidableEq, Repr, Inhabited

structure TableId where
  index : Nat
  deriving DecidableEq, Repr, Inhabited

structure ColumnId where
  table : TableId
  index : Nat
  deriving DecidableEq, Repr, Inhabited

structure Column where
  id : ColumnId
  name : String
  type : DbType
  nullable : Bool
  primaryKey : Bool
  autoIncrement : Bool
  deriving DecidableEq, Repr, Inhabited

/-- A column of the declaring table and the column it references. -/
structure KeyPair where
  foreign : ColumnId
  primary : ColumnId
  deriving DecidableEq, Repr, Inhabited

structure ForeignKey where
  table : TableId
  target : TableId
  pairs : List KeyPair
  deriving DecidableEq, Repr, Inhabited

inductive TableKind where
  | table | view | function
  deriving DecidableEq, Repr, Inhabited

def TableKind.name : TableKind → String
  | .table => "Table"
  | .view => "View"
  | .function => "Function"

structure Table where
  id : TableId
  name : String
  kind : TableKind
  columns : List Column
  primaryKey : List ColumnId
  foreignKeys : List ForeignKey
  deriving DecidableEq, Repr, Inhabited

structure Schema where
  tables : List Table
  deriving DecidableEq, Repr, Inhabited

namespace Table

def column? (t : Table) (index : Nat) : Option Column := t.columns[index]?

/-- The column of this exact name, else the first one named so up to case. -/
def findColumn (t : Table) (name : String) : Option Column :=
  findNamed Column.name name t.columns

/-- The columns of the primary key, in key order. -/
def keyColumns (t : Table) : List Column :=
  t.primaryKey.filterMap fun id => t.columns[id.index]?

def hasKey (t : Table) : Bool := !t.primaryKey.isEmpty

/-- The foreign keys that reference `target`, in declaration order. -/
def keysTo (t : Table) (target : TableId) : List ForeignKey :=
  t.foreignKeys.filter fun key => key.target == target

def isKeyColumn (t : Table) (id : ColumnId) : Bool :=
  t.foreignKeys.any fun key => key.pairs.any fun pair => pair.foreign == id

end Table

namespace Schema

def table? (s : Schema) (id : TableId) : Option Table := s.tables[id.index]?

def column? (s : Schema) (id : ColumnId) : Option Column :=
  (s.table? id.table).bind fun t => t.columns[id.index]?

/-- The table at a position of this schema. -/
def table (s : Schema) (id : TableId) : Table := (s.table? id).getD default

/-- The name of the column at a position of this schema. -/
def columnName (s : Schema) (id : ColumnId) : String := ((s.column? id).map Column.name).getD ""

/-- The table of this exact name, else the first one named so up to case. -/
def findTable (s : Schema) (name : String) : Option Table :=
  findNamed Table.name name s.tables

end Schema

/-- Some column that the key is declared on starts with `stem`, up to case. -/
def ForeignKey.startsWith (key : ForeignKey) (s : Schema) (stem : String) : Bool :=
  key.pairs.any fun pair =>
    (lowerAscii stem).toList.isPrefixOf (lowerAscii (s.columnName pair.foreign)).toList

end ShapeSql
