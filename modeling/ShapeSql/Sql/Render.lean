import ShapeSql.Sql.Fragment
import ShapeSql.Sql.Lexeme

/-!
Writing statements out. Trees are written by recursion on the tree alone; what stands in a hole is
asked from a `HolePrinter`. The printer of a substitution writes the fragment with the printer of
one level less, so fragments may hold holes, and holes that lead back to themselves are found out
when the levels are used up: no chain of different holes is longer than the substitution.
-/

namespace ShapeSql.Sql

abbrev Written := Except Fault (List Lexeme)

/-- How the holes of each place are written: an expression, the terms of an ordering, assignments,
and the rows of a VALUES list. -/
structure HolePrinter where
  expr : HoleId → Written
  order : HoleId → Except Fault (List (List Lexeme))
  assignments : HoleId → Except Fault (List (List Lexeme))
  rows : HoleId → Except Fault (List (List (List Lexeme)))

/-- The items with `separator` between them. -/
def separated (separator : String) (items : List (List Lexeme)) : List Lexeme :=
  List.intercalate [.word separator] items

def commaed (items : List (List Lexeme)) : List Lexeme := separated ", " items

def namesWritten (names : List String) : List Lexeme := commaed (names.map fun n => [.name n])

/-- The optional ` AS "name"` after a row source or a projected expression. -/
def asWritten : Option String → List Lexeme
  | none => []
  | some name => [.word " AS ", .name name]

def CompareOp.sign : CompareOp → String
  | .eq => "="
  | .ne => "<>"
  | .gt => ">"
  | .ge => ">="
  | .lt => "<"
  | .le => "<="

def Direction.written : Option Direction → List Lexeme
  | none => []
  | some .asc => [.word " ASC"]
  | some .desc => [.word " DESC"]

def columnWritten : Option Qualifier → String → List Lexeme
  | some (.source aliasName), name => [.name aliasName, .word ".", .name name]
  | some .inserted, name => [.word "inserted.", .name name]
  | none, name => [.name name]

def joinWord : JoinKind → String
  | .inner => " INNER JOIN "
  | .left => " LEFT JOIN "

/-- The word followed by the item, nothing without an item. -/
def clause (word : String) : Option (List Lexeme) → List Lexeme
  | none => []
  | some item => .word word :: item

/-- ORDER BY; a paged query without an ordering gets a constant one, which paging requires. -/
def orderWritten (paged : Bool) : List (List Lexeme) → List Lexeme
  | [] => if paged then [.word " ORDER BY (SELECT NULL)"] else []
  | terms => .word " ORDER BY " :: commaed terms

def pageWritten : Option (List Lexeme) → Option (List Lexeme) → List Lexeme
  | none, none => []
  | some offset, none => .word " OFFSET " :: offset ++ [.word " ROWS"]
  | some offset, some fetch =>
    .word " OFFSET " :: offset ++ .word " ROWS" :: .word " FETCH NEXT " :: fetch
      ++ [.word " ROWS ONLY"]
  | none, some fetch => .word " OFFSET 0 ROWS FETCH NEXT " :: fetch ++ [.word " ROWS ONLY"]

mutual

def Expr.written (holes : HolePrinter) : Expr → Written
  | .all operands => do
    let items ← exprsWritten holes operands
    return separated " AND " items
  | .any operands => do
    let items ← exprsWritten holes operands
    return .word "(" :: separated " OR " items ++ [.word ")"]
  | .compare left op right => do
    let l ← left.written holes
    let r ← right.written holes
    return l ++ .word (" " ++ op.sign ++ " ") :: r
  | .column qualifier name => .ok (columnWritten qualifier name)
  | .countAll => .ok [.word "count(*)"]
  | .exists query negated => do
    let q ← query.written holes
    return .word (if negated then "NOT EXISTS (" else "EXISTS (") :: q ++ [.word ")"]
  | .group inner => do
    let e ← inner.written holes
    return .word "(" :: e ++ [.word ")"]
  | .hole id => holes.expr id
  | .inList _ [] _ => .error .emptyList
  | .inList item (first :: rest) negated => do
    let e ← item.written holes
    let head ← first.written holes
    let tail ← exprsWritten holes rest
    return e ++ .word (if negated then " NOT IN (" else " IN (") :: commaed (head :: tail)
      ++ [.word ")"]
  | .isNull item negated => do
    let e ← item.written holes
    return e ++ [.word (if negated then " IS NOT NULL" else " IS NULL")]
  | .like item pattern negated => do
    let e ← item.written holes
    let p ← pattern.written holes
    return e ++ .word (if negated then " NOT LIKE " else " LIKE ") :: p
  | .int value => .ok [.number value.toInt]
  | .text value => .ok [.literal value]
  | .null => .ok [.word "NULL"]
  | .param name => .ok [.atName name]

def exprsWritten (holes : HolePrinter) : List Expr → Except Fault (List (List Lexeme))
  | [] => .ok []
  | e :: es => do
    let first ← e.written holes
    let rest ← exprsWritten holes es
    return first :: rest

def optionalWritten (holes : HolePrinter) : Option Expr → Except Fault (Option (List Lexeme))
  | none => .ok none
  | some e => do
    let w ← e.written holes
    return some w

def Query.written (holes : HolePrinter) : Query → Written
  | ⟨distinct, projection, source, filter, groupBy, orderBy, offset, fetch⟩ => do
    let items ← projectedWritten holes projection
    let source ← sourceWritten holes source
    let filter ← optionalWritten holes filter
    let groups ← exprsWritten holes groupBy
    let terms ← orderItemsWritten holes orderBy
    let offset ← optionalWritten holes offset
    let fetch ← optionalWritten holes fetch
    return .word (if distinct then "SELECT DISTINCT " else "SELECT ") :: commaed items
      ++ clause " FROM " source ++ clause " WHERE " filter
      ++ (if groups.isEmpty then [] else .word " GROUP BY " :: commaed groups)
      ++ orderWritten (offset.isSome || fetch.isSome) terms ++ pageWritten offset fetch

def projectedWritten (holes : HolePrinter) : List Projected → Except Fault (List (List Lexeme))
  | [] => .ok []
  | ⟨expr, aliasName⟩ :: rest => do
    let e ← expr.written holes
    let others ← projectedWritten holes rest
    return (e ++ asWritten aliasName) :: others

def sourceWritten (holes : HolePrinter) : Option Source → Except Fault (Option (List Lexeme))
  | none => .ok none
  | some ⟨base, joins⟩ => do
    let b ← base.written holes
    let js ← joinsWritten holes joins
    return some (b ++ js)

def joinsWritten (holes : HolePrinter) : List Join → Written
  | [] => .ok []
  | ⟨kind, factor, condition⟩ :: rest => do
    let f ← factor.written holes
    let c ← condition.written holes
    let others ← joinsWritten holes rest
    return .word (joinWord kind) :: f ++ .word " ON " :: c ++ others

def Factor.written (holes : HolePrinter) : Factor → Written
  | .table name aliasName => .ok (.name name :: asWritten aliasName)
  | .tableVar name aliasName => .ok (.atName name :: asWritten aliasName)
  | .derived query aliasName => do
    let q ← query.written holes
    return .word "(" :: q ++ [.word ") AS ", .name aliasName]

def orderItemsWritten (holes : HolePrinter) : List OrderItem → Except Fault (List (List Lexeme))
  | [] => .ok []
  | .term ⟨expr, direction⟩ :: rest => do
    let e ← expr.written holes
    let others ← orderItemsWritten holes rest
    return (e ++ Direction.written direction) :: others
  | .hole id :: rest => do
    let terms ← holes.order id
    let others ← orderItemsWritten holes rest
    return terms ++ others

end

def orderTermsWritten (holes : HolePrinter) (terms : List OrderTerm) :
    Except Fault (List (List Lexeme)) :=
  terms.mapM fun t => do
    let e ← t.expr.written holes
    return e ++ Direction.written t.direction

/-- `"column" = value`; a hole among bound assignments cannot be written. -/
def assignmentWritten (holes : HolePrinter) : Assignment → Written
  | .set column value => do
    let v ← value.written holes
    return .name column :: .word " = " :: v
  | .hole id => .error (.openAssignment id)

/-- The assignments of a SET list, those of its holes in their place. -/
def assignmentsWritten (holes : HolePrinter) : List Assignment → Except Fault (List (List Lexeme))
  | [] => .ok []
  | .hole id :: rest => do
    let bound ← holes.assignments id
    let others ← assignmentsWritten holes rest
    return bound ++ others
  | a :: rest => do
    let first ← assignmentWritten holes a
    let others ← assignmentsWritten holes rest
    return first :: others

def rowsWritten (holes : HolePrinter) (rows : List (List Expr)) :
    Except Fault (List (List (List Lexeme))) :=
  rows.mapM (exprsWritten holes)

namespace HolePrinter

/-- No hole can be written. -/
def refusing (fault : HoleId → Fault) : HolePrinter where
  expr id := .error (fault id)
  order id := .error (fault id)
  assignments id := .error (fault id)
  rows id := .error (fault id)

/-- Writes what a hole is bound to, holes within it by the printer `inner`. -/
def filling (subs : Substitution) (inner : HolePrinter) : HolePrinter where
  expr id := match subs.find? id with
    | some (.expr e) => e.written inner
    | some _ => .error (.misfit id)
    | none => .error (.unbound id)
  order id := match subs.find? id with
    | some (.order terms) => orderTermsWritten inner terms
    | some _ => .error (.misfit id)
    | none => .error (.unbound id)
  assignments id := match subs.find? id with
    | some (.assignments list) => list.mapM (assignmentWritten inner)
    | some _ => .error (.misfit id)
    | none => .error (.unbound id)
  rows id := match subs.find? id with
    | some (.rows rows) => rowsWritten inner rows
    | some _ => .error (.misfit id)
    | none => .error (.unbound id)

/-- The printer of a substitution for fragments nested up to `depth` deep. -/
def nested (subs : Substitution) : Nat → HolePrinter
  | 0 => filling subs (refusing .circular)
  | depth + 1 => filling subs (nested subs depth)

/-- The printer of a substitution. -/
def ofSubstitution (subs : Substitution) : HolePrinter := nested subs subs.size

end HolePrinter

/-- A VALUES list holds at most this many rows. -/
def maxRows : Nat := 1000

/-- The items in groups of `size`, the last one shorter; `fuel` bounds the number of groups. -/
def chunksUpTo (size : Nat) : Nat → List α → List (List α)
  | 0, _ => []
  | _ + 1, [] => []
  | fuel + 1, items => items.take size :: chunksUpTo size fuel (items.drop size)

def chunks (size : Nat) (items : List α) : List (List α) := chunksUpTo size items.length items

def InsertTarget.written : InsertTarget → List Lexeme
  | .table name => [.name name]
  | .tableVar name => [.atName name]

def insertHead (target : InsertTarget) (columns : List String) : List Lexeme :=
  .word "INSERT INTO " :: target.written
    ++ (if columns.isEmpty then [] else .word " (" :: namesWritten columns ++ [.word ")"])

def rowWritten (row : List (List Lexeme)) : List Lexeme := .word "(" :: commaed row ++ [.word ")"]

/-- One INSERT for every thousand rows; without rows a statement that inserts nothing. -/
def insertRows (head : List Lexeme) (columns : List String) :
    List (List (List Lexeme)) → List Lexeme
  | [] =>
    head ++ .word " SELECT " :: commaed (columns.map fun _ => [.word "NULL"])
      ++ [.word " WHERE 1 = 0"]
  | rows =>
    separated ";\n" ((chunks maxRows rows).map fun group =>
      head ++ .word " VALUES " :: commaed (group.map rowWritten))

def insertWritten (holes : HolePrinter) (target : InsertTarget) (columns : List String)
    (source : InsertSource) : Written :=
  let head := insertHead target columns
  if columns.isEmpty then .ok (head ++ [.word " DEFAULT VALUES"])
  else match source with
    | .rows rows => do
      let rows ← rowsWritten holes rows
      return insertRows head columns rows
    | .hole id => do
      let rows ← holes.rows id
      return insertRows head columns rows
    | .query query => do
      let q ← query.written holes
      return head ++ .word " " :: q

def typeSpelling : DbType → String
  | .boolean => "bit"
  | .integer 1 => "tinyint"
  | .integer 2 => "smallint"
  | .integer 4 => "int"
  | .integer _ => "bigint"
  | .float => "float"
  | .text => "nvarchar(max)"
  | .varChar length => "nvarchar(" ++ toString length.toNat ++ ")"
  | .binary => "varbinary(max)"
  | .uuid => "uniqueidentifier"
  | .dateTime => "datetime2"
  | .custom name => name

def columnDefWritten (c : ColumnDef) : List Lexeme :=
  [.name c.name, .word " ", .word (typeSpelling c.type), .word (if c.nullable then " NULL" else "")]

def mergeInsertWritten (holes : HolePrinter) : Option MergeInsert → Written
  | none => .ok []
  | some insert =>
    if insert.columns.isEmpty then
      .ok [.word " WHEN NOT MATCHED THEN INSERT", .word " DEFAULT VALUES"]
    else do
      let values ← exprsWritten holes insert.values
      return .word " WHEN NOT MATCHED THEN INSERT" :: .word " (" :: namesWritten insert.columns
        ++ .word ") VALUES (" :: commaed values ++ [.word ")"]

def outputWritten (holes : HolePrinter) : Option OutputInto → Written
  | none => .ok []
  | some output => do
    let exprs ← exprsWritten holes output.exprs
    return .word " OUTPUT " :: commaed exprs ++ .word " INTO " :: .atName output.into
      :: .word " (" :: namesWritten output.columns ++ [.word ")"]

def mergeWritten (holes : HolePrinter) (m : Merge) : Written := do
  let target ← m.target.written holes
  let source ← m.source.written holes
  let condition ← m.condition.written holes
  let assignments ← assignmentsWritten holes m.matchedUpdate
  let insert ← mergeInsertWritten holes m.notMatchedInsert
  let output ← outputWritten holes m.output
  return .word "MERGE INTO " :: target ++ .word " USING " :: source ++ .word " ON " :: condition
    ++ (if assignments.isEmpty then []
      else .word " WHEN MATCHED THEN UPDATE SET " :: commaed assignments)
    ++ insert ++ output

def updateWritten (holes : HolePrinter) (u : Update) : Written := do
  let assignments ← assignmentsWritten holes u.assignments
  if assignments.isEmpty then throw .emptyUpdate
  let source ← sourceWritten holes u.source
  let filter ← optionalWritten holes u.filter
  return .word "UPDATE " :: .name u.target :: .word " SET " :: commaed assignments
    ++ clause " FROM " source ++ clause " WHERE " filter

/-- A table with an alias is named by it before FROM. -/
def deleteHead : Factor → List Lexeme
  | .table _ (some aliasName) => [.word "DELETE ", .name aliasName, .word " FROM "]
  | _ => [.word "DELETE FROM "]

def Statement.written (holes : HolePrinter) : Statement → Written
  | .declare name columns =>
    .ok (.word "DECLARE " :: .atName name :: .word " TABLE ("
      :: commaed (columns.map columnDefWritten) ++ [.word ")"])
  | .delete source filter => do
    let s ← source.written holes
    let f ← optionalWritten holes filter
    return deleteHead source ++ s ++ clause " WHERE " f
  | .insert target columns source => insertWritten holes target columns source
  | .merge m => mergeWritten holes m
  | .query q => q.written holes
  | .update u => updateWritten holes u

/-- The lexemes of a batch under a substitution. -/
def Batch.written (batch : Batch) (subs : Substitution) : Written := do
  let statements ← batch.mapM (Statement.written (.ofSubstitution subs))
  return separated ";\n" statements ++ [.word ";"]

/-- The command text of a batch under a substitution. -/
def Batch.render (batch : Batch) (subs : Substitution) : Except Fault String :=
  (batch.written subs).map textOf

end ShapeSql.Sql
