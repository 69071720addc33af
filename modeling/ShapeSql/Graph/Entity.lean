import ShapeSql.Value.Digest

namespace ShapeSql

/-- The values that identify a row at its level. -/
structure RowKey where
  values : List Value
  deriving Inhabited

namespace RowKey

def digest (key : RowKey) : List DigestWord :=
  .count key.values.length :: Value.digestItems key.values

/-- Equality of the values. -/
def same (a b : RowKey) : Bool := Value.sameItems a.values b.values

/-- Two rows show one entity if their keys are equal, down to what only a digest tells apart. -/
def identifies (a b : RowKey) : Bool := a.digest == b.digest && a.same b

end RowKey

/-- An entity, and the entities nested in it by the way that leads to them. -/
inductive Entity where
  | node (key : RowKey) (rowNumber : Nat) (values : Record) (nested : List (String × List Entity))
  deriving Inhabited

/-- Entities of one level in the order of first appearance. -/
abbrev Entities := List Entity

/-- Entities by the way from the level above. -/
abbrev Nested := List (String × Entities)

namespace Entity

def key : Entity → RowKey
  | .node key _ _ _ => key

/-- The number of the row that the entity first appeared in. -/
def rowNumber : Entity → Nat
  | .node _ rowNumber _ _ => rowNumber

def values : Entity → Record
  | .node _ _ values _ => values

def nested : Entity → Nested
  | .node _ _ _ nested => nested

/-- An entity with nothing nested in it yet. -/
def ofRow (key : RowKey) (rowNumber : Nat) (values : Record) : Entity :=
  .node key rowNumber values []

def mapNested (f : Nested → Nested) : Entity → Entity
  | .node key rowNumber values nested => .node key rowNumber values (f nested)

end Entity

namespace Nested

/-- The entities along a way. -/
def along (nested : Nested) (way : String) : Entities :=
  ((nested.find? fun entry => entry.1 == way).map Prod.snd).getD []

/-- Changes the entities along a way, which is added if it is new. -/
def update (f : Entities → Entities) (way : String) : Nested → Nested
  | [] => [(way, f [])]
  | (other, entities) :: rest =>
    if other = way then (way, f entities) :: rest else (other, entities) :: update f way rest

end Nested

namespace Entities

/-- Changes the entity with the key of `fresh`, which is added if there is none. -/
def upsert (fresh : Entity) (f : Entity → Entity) : Entities → Entities
  | [] => [f fresh]
  | e :: rest =>
    if e.key.identifies fresh.key then f e :: rest else e :: upsert fresh f rest

/-- The entity of a key. Among several the digests must agree as well, a single one is compared by
its values alone. -/
def find? (entities : Entities) (key : RowKey) : Option Entity :=
  match entities with
  | [e] => if e.key.same key then some e else none
  | _ => List.find? (fun e => e.key.identifies key) entities

end Entities
end ShapeSql
