import ShapeSql.Error
import ShapeSql.Options
import ShapeSql.Relation.Basic

namespace ShapeSql

inductive Link where
  /-- The parent holds the foreign key. -/
  | parentHolds (pairs : List JoinPair)
  /-- The child holds the foreign key. -/
  | childHolds (pairs : List JoinPair)
  /-- A junction holds a key to each: pairs from the parent into it, and out of it to the child. -/
  | junction (table : TableId) (toParent toChild : List JoinPair)
  deriving DecidableEq, Repr

namespace ForeignKey

/-- The pairs seen from the table that declares the key. -/
def forward (key : ForeignKey) : List JoinPair := key.pairs.map fun p => ⟨p.foreign, p.primary⟩

/-- The pairs seen from the table that is referenced. -/
def backward (key : ForeignKey) : List JoinPair := key.pairs.map fun p => ⟨p.primary, p.foreign⟩

end ForeignKey

/-- Whether the child's side of the pairs covers its primary key. -/
def coversKey (s : Schema) (pairs : List JoinPair) : Bool :=
  match pairs with
  | [] => false
  | first :: _ =>
    let table := s.table first.child.table
    table.hasKey && table.primaryKey.all fun key => pairs.any fun p => p.child == key

namespace Link

/-- Of several keys one with a column named after the field, else one named after the referenced
table, else the first. -/
def pick (s : Schema) (keys : List ForeignKey) (field referenced : String) : Option ForeignKey :=
  match keys with
  | [] => none
  | [key] => some key
  | first :: _ =>
    match keys.find? fun key => key.startsWith s field with
    | some key => some key
    | none => some ((keys.find? fun key => key.startsWith s referenced).getD first)

/-- The key from the junction to each side, if the table can serve as a junction. -/
def junctionKeys (parent child table : Table) : Option (ForeignKey × ForeignKey) :=
  if table.id = parent.id ∨ table.id = child.id then none
  else if parent.id = child.id then
    match table.keysTo parent.id with
    | [toParent, toChild] => some (toParent, toChild)
    | _ => none
  else
    match table.keysTo parent.id, table.keysTo child.id with
    | [toParent], [toChild] => some (toParent, toChild)
    | _, _ => none

structure Candidate where
  table : Table
  toParent : ForeignKey
  toChild : ForeignKey

def candidates (s : Schema) (parent child : Table) : List Candidate :=
  s.tables.filterMap fun table =>
    (junctionKeys parent child table).map fun keys => ⟨table, keys.1, keys.2⟩

/-- The candidates with the fewest columns, in schema order. -/
def narrowest (candidates : List Candidate) : List Candidate :=
  candidates.filter fun c =>
    candidates.all fun other => c.table.columns.length ≤ other.table.columns.length

def Candidate.link (c : Candidate) : Link :=
  .junction c.table.id c.toParent.backward c.toChild.forward

/-- The link through a junction table. -/
def throughJunction (s : Schema) (parent child : Table) (policy : JunctionPolicy) :
    Except Error (Option Link) :=
  match narrowest (candidates s parent child), policy with
  | [], _ => .ok none
  | first :: second :: rest, .error =>
    .error (.of (.ambiguousRelation parent.name child.name
      ((first :: second :: rest).map fun c => c.table.name)))
  | first :: _, _ => .ok (some first.link)

/-- The link of a field named `field`, none when the schema has no usable foreign key. -/
def infer (s : Schema) (parent child : Table) (field : String) (many : Bool)
    (policy : JunctionPolicy) : Except Error (Option Link) :=
  let parentHolds := (pick s (parent.keysTo child.id) field child.name).map fun key =>
    Link.parentHolds key.forward
  let childHolds := (pick s (child.keysTo parent.id) field parent.name).map fun key =>
    Link.childHolds key.backward
  let direct := if many then childHolds.or parentHolds else parentHolds.or childHolds
  match direct with
  | some link => .ok (some link)
  | none => throughJunction s parent child policy

/-- Whether following the link can lead to several child rows. -/
def isMany (s : Schema) : Link → Bool
  | .parentHolds pairs | .childHolds pairs => !coversKey s pairs
  | .junction .. => true

/-- The only column of a key of one column. -/
def singleKey (t : Table) : Option ColumnId :=
  match t.primaryKey with
  | [column] => some column
  | _ => none

/-- The pairs of one hop of a via-relation between the columns declared on either side: these two,
else a foreign key consistent with the one declared, else the single key column opposite it. -/
def hop (source : Table) (left : Option ColumnId) (target : Table) (right : Option ColumnId) :
    Option (List JoinPair) :=
  match left, right with
  | some l, some r => some [⟨l, r⟩]
  | left, right =>
    -- A foreign key in either direction that has the columns declared.
    let consistent := fun (pairs : List JoinPair) =>
      (left.all fun l => pairs.any fun p => p.parent == l)
        && (right.all fun r => pairs.any fun p => p.child == r)
    let known := (source.keysTo target.id).map ForeignKey.forward
      ++ (target.keysTo source.id).map ForeignKey.backward
    match known.find? consistent with
    | some pairs => some pairs
    | none =>
      -- No such key: a single column opposite a primary key of one column is understood.
      match left, right with
      | some l, none => (singleKey target).map fun r => [⟨l, r⟩]
      | none, some r => (singleKey source).map fun l => [⟨l, r⟩]
      | _, _ => none

end Link
end ShapeSql
