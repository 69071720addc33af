import ShapeSql.Error
import ShapeSql.Relation.Basic

/-!
Merging relations into others: the union of two trees over the same root table. Children match by
table, kind and name; the columns of matching places are united by name, and what only the other
tree has is copied under fresh names. A join that both sides declare must be the same. A merge that
runs into a conflict leaves what it has merged until then.
-/

namespace ShapeSql.Relations

/-- The result of an attempt, and what stopped it. -/
structure Merged (α : Type) where
  value : α
  supply : Supply
  failure : Option Error

/-- Adds a column of the other side; one that either side asks for is no mere anchor. -/
def uniteColumn (columns : List ProjectedColumn) (c : ProjectedColumn) : List ProjectedColumn :=
  match columns with
  | [] => [c]
  | own :: rest =>
    if own.name = c.name then { own with anchor := own.anchor && c.anchor } :: rest
    else own :: uniteColumn rest c

def uniteColumns (own other : List ProjectedColumn) : List ProjectedColumn :=
  other.foldl uniteColumn own

/-- Whether two places stand for the same navigation. -/
def matching (own other : Relation) : Bool :=
  own.table == other.table && own.kind == other.kind && sameName own.name other.name

mutual

/-- A copy below the row source `parentAlias`, under fresh names and numbers. -/
def copyTree (parentAlias : String) : RelationTree → Supply → RelationTree × Supply
  | .node r kids, supply =>
    let desired := if r.isEmbedded then none else some r.aliasName
    let (copy, supply) := supply.relation r.table r.name r.path r.join r.kind desired parentAlias
    let (copies, supply) := copyTrees copy.aliasName kids supply
    (.node { copy with columns := r.columns } copies, supply)

def copyTrees (parentAlias : String) : List RelationTree → Supply → List RelationTree × Supply
  | [], supply => ([], supply)
  | t :: ts, supply =>
    let (copy, supply) := copyTree parentAlias t supply
    let (copies, supply) := copyTrees parentAlias ts supply
    (copy :: copies, supply)

end

/-- The join two matching places have together, none if they contradict each other. -/
def commonJoin? (own other : List JoinPair) : Option (List JoinPair) :=
  if own.isEmpty then some other
  else if other.isEmpty || own == other then some own
  else none

mutual

def mergeTree (own : RelationTree) : RelationTree → Supply → Merged RelationTree
  | .node r kids, supply =>
    let label := { own.label with columns := uniteColumns own.label.columns r.columns }
    let merged := mergeTrees label.aliasName own.children kids supply
    ⟨.node label merged.value, merged.supply, merged.failure⟩

/-- Merges the children of the other side one by one. -/
def mergeTrees (parentAlias : String) (own : List RelationTree) :
    List RelationTree → Supply → Merged (List RelationTree)
  | [], supply => ⟨own, supply, none⟩
  | t :: ts, supply =>
    match own.findIdx? fun o => matching o.label t.label with
    | none =>
      let (copy, supply) := copyTree parentAlias t supply
      mergeTrees parentAlias (own ++ [copy]) ts supply
    -- The joins are compared first, so that a contradiction leaves the place as it is.
    | some index =>
      let present := own.getD index default
      match commonJoin? present.label.join t.label.join with
      | none => ⟨own, supply, some (.incident (.conflictingJoins t.label.path))⟩
      | some join =>
        let joined : RelationTree := .node { present.label with join } present.children
        let merged := mergeTree joined t supply
        let own := own.set index merged.value
        match merged.failure with
        | some failure => ⟨own, merged.supply, some failure⟩
        | none => mergeTrees parentAlias own ts merged.supply

end

/-- Merges `other` into `own`. -/
def merge (own other : Relations) : Merged Relations :=
  if own.root.table = other.root.table then
    let merged := mergeTree own.tree other.tree own.supply
    ⟨⟨merged.value, merged.supply⟩, merged.supply, merged.failure⟩
  else
    ⟨own, own.supply, some (.incident (.rootsDiffer own.root.aliasName other.root.aliasName))⟩

/-- The merged relations, or what stopped the merge. -/
def merged (own other : Relations) : Except Error Relations :=
  match (own.merge other).failure with
  | none => .ok (own.merge other).value
  | some failure => .error failure

end ShapeSql.Relations
