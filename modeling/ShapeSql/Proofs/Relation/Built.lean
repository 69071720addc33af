import ShapeSql.Proofs.Relation.Spelled

namespace ShapeSql

/-- Of two columns of one name the later is an anchor if the earlier is. -/
def Shadowed (columns : List ProjectedColumn) : Prop :=
  columns.Pairwise fun c d => c.name = d.name → c.anchor = true → d.anchor = true

namespace Shadowed

variable {columns : List ProjectedColumn}

theorem nil : Shadowed [] := List.Pairwise.nil

theorem snoc (h : Shadowed columns) {d : ProjectedColumn}
    (hlast : ∀ c ∈ columns, c.name = d.name → c.anchor = true → d.anchor = true) :
    Shadowed (columns ++ [d]) := by
  refine List.pairwise_append.mpr ⟨h, List.pairwise_singleton _ _, fun c hc e he => ?_⟩
  rw [List.mem_singleton.mp he]
  exact hlast c hc

theorem project (h : Shadowed columns) (column : ColumnId) (name : String) :
    Shadowed (Relation.project columns column name) := by
  unfold Relation.project
  split
  · exact h
  · rename_i hfree
    refine h.snoc fun c hc hname => absurd ?_ hfree
    exact List.any_eq_true.mpr ⟨c, hc, beq_iff_eq.mpr hname⟩

theorem anchorColumn (h : Shadowed columns) (s : Schema) (key : ColumnId) :
    Shadowed (Relation.anchorColumn s columns key) := by
  unfold Relation.anchorColumn
  split
  · exact h
  · exact h.snoc fun _ _ _ _ => rfl

theorem mem_uniteColumn {c d : ProjectedColumn} (h : d ∈ Relations.uniteColumn columns c) :
    d ∈ columns ∨ d.name = c.name := by
  induction columns with
  | nil =>
    rw [List.mem_singleton.mp h]
    exact Or.inr rfl
  | cons own rest ih =>
    rw [Relations.uniteColumn] at h
    split at h
    · rename_i hsame
      rcases List.mem_cons.mp h with rfl | hrest
      · exact Or.inr hsame
      · exact Or.inl (List.mem_cons_of_mem _ hrest)
    · rcases List.mem_cons.mp h with rfl | hrest
      · exact Or.inl List.mem_cons_self
      · exact (ih hrest).imp (List.mem_cons_of_mem _) id

theorem uniteColumn (h : Shadowed columns) (c : ProjectedColumn) :
    Shadowed (Relations.uniteColumn columns c) := by
  induction columns with
  | nil => exact List.pairwise_singleton _ _
  | cons own rest ih =>
    obtain ⟨hown, hrest⟩ := List.pairwise_cons.mp h
    rw [Relations.uniteColumn]
    split
    · refine List.pairwise_cons.mpr ⟨fun d hd hname hanchor => ?_, hrest⟩
      exact hown d hd hname ((Bool.and_eq_true _ _).mp hanchor).1
    · rename_i hother
      refine List.pairwise_cons.mpr ⟨fun d hd hname => ?_, ih hrest⟩
      rcases mem_uniteColumn hd with hkept | hsame
      · exact hown d hkept hname
      · exact absurd (hname.trans hsame) hother

theorem uniteColumns (h : Shadowed columns) (other : List ProjectedColumn) :
    Shadowed (Relations.uniteColumns columns other) := by
  unfold Relations.uniteColumns
  induction other generalizing columns with
  | nil => exact h
  | cons c other ih => exact ih (h.uniteColumn c)

/-- Columns that are united with one of their own stay as they are. -/
theorem uniteColumn_self (h : Shadowed columns) {c : ProjectedColumn} (hc : c ∈ columns) :
    Relations.uniteColumn columns c = columns := by
  induction columns with
  | nil => cases hc
  | cons own rest ih =>
    obtain ⟨hown, hrest⟩ := List.pairwise_cons.mp h
    rw [Relations.uniteColumn]
    split
    · rename_i hsame
      have hanchor : (own.anchor && c.anchor) = own.anchor := by
        rcases List.mem_cons.mp hc with rfl | hlater
        · exact Bool.and_self _
        · exact Bool.and_eq_left_iff_imp.mpr (hown c hlater hsame)
      rw [hanchor]
    · rename_i hother
      rcases List.mem_cons.mp hc with rfl | hlater
      · exact absurd rfl hother
      · rw [ih hrest hlater]

theorem uniteColumns_self (h : Shadowed columns) : Relations.uniteColumns columns columns = columns := by
  have hsame : ∀ other, (∀ c ∈ other, c ∈ columns) → Relations.uniteColumns columns other = columns := by
    intro other
    induction other with
    | nil => exact fun _ => rfl
    | cons c other ih =>
      intro hmem
      rw [List.forall_mem_cons] at hmem
      rw [Relations.uniteColumns, List.foldl_cons, h.uniteColumn_self hmem.1]
      exact ih hmem.2
  exact hsame columns fun _ hc => hc

end Shadowed

theorem Relation.shadowed_anchorKey (s : Schema) {r : Relation} (h : Shadowed r.columns) :
    Shadowed (r.anchorKey s).columns := by
  have hkeys : ∀ (keys : List ColumnId) {columns : List ProjectedColumn}, Shadowed columns →
      Shadowed (keys.foldl (Relation.anchorColumn s) columns) := by
    intro keys
    induction keys with
    | nil => exact fun hcolumns => hcolumns
    | cons key keys ih => exact fun hcolumns => ih (hcolumns.anchorColumn s key)
  unfold Relation.anchorKey
  split
  · exact hkeys _ h
  · exact h

/-- In all places of the trees names are shadowed. -/
def ShadowedAll (trees : List RelationTree) : Prop :=
  ∀ r ∈ Tree.preorderAll trees, Shadowed r.columns

theorem shadowedAll_nil : ShadowedAll [] := List.forall_mem_nil _

theorem shadowedAll_cons {r : Relation} {kids trees : List RelationTree} :
    ShadowedAll (.node r kids :: trees) ↔
      Shadowed r.columns ∧ ShadowedAll kids ∧ ShadowedAll trees := by
  simp only [ShadowedAll, Tree.preorderAll, Tree.preorder, List.cons_append, List.forall_mem_cons,
    List.forall_mem_append]

theorem shadowedAll_append {xs ys : List RelationTree} :
    ShadowedAll (xs ++ ys) ↔ ShadowedAll xs ∧ ShadowedAll ys := by
  simp only [ShadowedAll, Tree.preorderAll_eq_flatMap, List.flatMap_append, List.forall_mem_append]

theorem shadowedAll_anchorKeys (s : Schema) {trees : List RelationTree} (h : ShadowedAll trees) :
    ShadowedAll (Tree.mapAll (Relation.anchorKey s) trees) := by
  rw [ShadowedAll, Tree.preorderAll_mapAll, List.forall_mem_map]
  exact fun r hr => r.shadowed_anchorKey s (h r hr)

theorem shadowedAll_nested {columns : List ProjectedColumn} {kids : List RelationTree}
    {places : List Relation} (hplaces : ∀ q ∈ places, q.columns = []) (hcolumns : Shadowed columns)
    (hkids : ShadowedAll kids) : ShadowedAll (nested columns kids places) := by
  induction places with
  | nil => exact hkids
  | cons q rest ih =>
    rw [List.forall_mem_cons] at hplaces
    cases rest with
    | nil => exact shadowedAll_cons.mpr ⟨hcolumns, hkids, shadowedAll_nil⟩
    | cons second rest =>
      refine shadowedAll_cons.mpr ⟨?_, ih hplaces.2, shadowedAll_nil⟩
      rw [hplaces.1]
      exact .nil

namespace Resolver

variable {r : Resolver}

mutual

theorem resolveField_shadowed : ∀ (t : FieldTree) {table : Table} {aliasName : String}
    {columns : List ProjectedColumn} {u u' : Supply}
    {result : List ProjectedColumn × List RelationTree},
    (r.resolveField table aliasName columns t).run u = .ok (result, u') →
      (Shadowed columns → Shadowed result.1) ∧ ShadowedAll result.2
  | .node field kids, table, aliasName, columns, u, u', result, hrun => by
    cases resolves_of_resolveField hrun with
    | excluded | cyclic => exact ⟨id, shadowedAll_nil⟩
    | scalar => exact ⟨fun h => h.project _ field.name, shadowedAll_nil⟩
    | places _ _ _ _ hplaces hbelow =>
      obtain ⟨hown, hkids⟩ := resolveFields_shadowed kids hbelow
      have hbare := Resolving.setUp_paths hplaces
      exact ⟨id, shadowedAll_nested (fun q hq => (hbare q hq).2) (hown .nil) hkids⟩

theorem resolveFields_shadowed : ∀ (ts : List FieldTree) {table : Table} {aliasName : String}
    {columns : List ProjectedColumn} {u u' : Supply}
    {result : List ProjectedColumn × List RelationTree},
    (r.resolveFields table aliasName columns ts).run u = .ok (result, u') →
      (Shadowed columns → Shadowed result.1) ∧ ShadowedAll result.2
  | [], table, aliasName, columns, u, u', result, hrun => by
    rw [resolveFields, run_pure_ok] at hrun
    rw [← hrun.1]
    exact ⟨id, shadowedAll_nil⟩
  | t :: ts, table, aliasName, columns, u, u', result, hrun => by
    simp only [resolveFields, run_bind_ok, run_pure_ok] at hrun
    obtain ⟨⟨_, first⟩, between, hfirst, ⟨_, others⟩, after, hothers, rfl, rfl⟩ := hrun
    obtain ⟨hcolumns, hplaces⟩ := resolveField_shadowed t hfirst
    obtain ⟨hrest, hplacesRest⟩ := resolveFields_shadowed ts hothers
    exact ⟨fun h => hrest (hcolumns h), shadowedAll_append.mpr ⟨hplaces, hplacesRest⟩⟩

end

theorem resolveSteps_shadowed {names : List String} {table : Table} {aliasName : String}
    {walked : Path} {u u' : Supply} {trees : List RelationTree}
    (hrun : (r.resolveSteps table aliasName walked names).run u = .ok (trees, u')) :
    ShadowedAll trees := by
  induction names generalizing table aliasName walked u trees with
  | nil =>
    rw [resolveSteps, run_pure_ok] at hrun
    rw [← hrun.1]
    exact shadowedAll_nil
  | cons step rest ih =>
    obtain ⟨_, _, places, between, below, _, _, hplaces, hbelow, rfl⟩ := resolveSteps_cons hrun
    have hbare := Resolving.setUp_paths hplaces
    exact shadowedAll_nested (fun q hq => (hbare q hq).2) .nil (ih hbelow)

end Resolver

namespace Relations

mutual

theorem copyTree_shadowed : ∀ (t : RelationTree) (parentAlias : String) (u : Supply),
    ShadowedAll [t] → ShadowedAll [(copyTree parentAlias t u).1]
  | .node r kids, parentAlias, u, h => by
    obtain ⟨hr, hkids, _⟩ := shadowedAll_cons.mp h
    rw [copyTree]
    exact shadowedAll_cons.mpr ⟨hr, copyTrees_shadowed kids _ _ hkids, shadowedAll_nil⟩

theorem copyTrees_shadowed : ∀ (ts : List RelationTree) (parentAlias : String) (u : Supply),
    ShadowedAll ts → ShadowedAll (copyTrees parentAlias ts u).1
  | [], _, _, _ => shadowedAll_nil
  | .node r kids :: ts, parentAlias, u, h => by
    obtain ⟨hr, hkids, hts⟩ := shadowedAll_cons.mp h
    have hfirst := copyTree_shadowed (.node r kids) parentAlias u
      (shadowedAll_cons.mpr ⟨hr, hkids, shadowedAll_nil⟩)
    have hrest := copyTrees_shadowed ts parentAlias (copyTree parentAlias (.node r kids) u).2 hts
    rw [copyTrees]
    exact shadowedAll_append.mpr ⟨hfirst, hrest⟩

end

mutual

theorem mergeTree_shadowed : ∀ (other own : RelationTree) (u : Supply), ShadowedAll [own] →
    ShadowedAll [other] → ShadowedAll [(mergeTree own other u).value]
  | .node r kids, .node label children, u, hown, hother => by
    obtain ⟨hlabel, hchildren, _⟩ := shadowedAll_cons.mp hown
    obtain ⟨_, hkids, _⟩ := shadowedAll_cons.mp hother
    rw [mergeTree]
    exact shadowedAll_cons.mpr ⟨hlabel.uniteColumns r.columns,
      mergeTrees_shadowed kids _ children u hchildren hkids, shadowedAll_nil⟩

theorem mergeTrees_shadowed : ∀ (others : List RelationTree) (parentAlias : String)
    (own : List RelationTree) (u : Supply), ShadowedAll own → ShadowedAll others →
      ShadowedAll (mergeTrees parentAlias own others u).value
  | [], _, _, _, hown, _ => hown
  | .node r kids :: ts, parentAlias, own, u, hown, hothers => by
    obtain ⟨hr, hkids, hts⟩ := shadowedAll_cons.mp hothers
    have ht : ShadowedAll [.node r kids] := shadowedAll_cons.mpr ⟨hr, hkids, shadowedAll_nil⟩
    rcases mergeTrees_cons parentAlias own (.node r kids) ts u with ⟨_, h⟩ |
      ⟨before, label, children, behind, rfl, _, ⟨_, h⟩ | ⟨join, _, hplaced⟩⟩
    · rw [h]
      have hcopy := copyTree_shadowed (.node r kids) parentAlias u ht
      exact mergeTrees_shadowed ts _ _ _ (shadowedAll_append.mpr ⟨hown, hcopy⟩) hts
    · rw [h]
      exact hown
    · obtain ⟨hbefore, hpresent⟩ := shadowedAll_append.mp hown
      obtain ⟨hlabel, hchildren, hbehind⟩ := shadowedAll_cons.mp hpresent
      have hmerged := mergeTree_shadowed (.node r kids) (.node { label with join } children) u
        (shadowedAll_cons.mpr ⟨hlabel, hchildren, shadowedAll_nil⟩) ht
      have hset : ShadowedAll (before ++ (mergeTree (.node { label with join } children)
          (.node r kids) u).value :: behind) := by
        refine shadowedAll_append.mpr ⟨hbefore, ?_⟩
        rw [← List.singleton_append]
        exact shadowedAll_append.mpr ⟨hmerged, hbehind⟩
      rcases hplaced with ⟨_, _, h⟩ | ⟨_, h⟩
      · rw [h]
        exact hset
      · rw [h]
        exact mergeTrees_shadowed ts _ _ _ hset hts

end

/-- Relations made by the steps that make relations. -/
inductive Built : Relations → Prop where
  | ofTable (table : Table) : Built (ofTable table)
  | resolve {r : Resolver} {table : Table} {output : FieldTree} {relations : Relations} :
    r.resolve table output = .ok relations → Built relations
  | resolvePath {r : Resolver} {table : Table} {path : Path} {relations : Relations} :
    r.resolvePath table path = .ok relations → Built relations
  | anchorKeys {relations : Relations} (s : Schema) : Built relations → Built (relations.anchorKeys s)
  | merge {own other : Relations} : Built own → Built other → Built (own.merge other).value

/-- What all relations have in common: a root that is told apart by its table alone, and shadowed
columns. -/
structure Formed (relations : Relations) : Prop where
  kind : relations.root.kind = .root
  name : relations.root.name = ""
  join : relations.root.join = []
  columns : ShadowedAll [relations.tree]

theorem Formed.anchorKeys {relations : Relations} (h : relations.Formed) (s : Schema) :
    (relations.anchorKeys s).Formed := by
  obtain ⟨⟨root, kids⟩, supply⟩ := relations
  have hroot : (root.anchorKey s).kind = root.kind ∧ (root.anchorKey s).name = root.name ∧
      (root.anchorKey s).join = root.join := by
    unfold Relation.anchorKey
    split
    · exact ⟨rfl, rfl, rfl⟩
    · exact ⟨rfl, rfl, rfl⟩
  exact ⟨hroot.1.trans h.kind, hroot.2.1.trans h.name, hroot.2.2.trans h.join,
    shadowedAll_anchorKeys s h.columns⟩

theorem Formed.merge {own other : Relations} (hown : own.Formed) (hother : other.Formed) :
    (own.merge other).value.Formed := by
  have hcolumns := mergeTree_shadowed other.tree own.tree own.supply hown.columns hother.columns
  obtain ⟨⟨root, kids⟩, supply⟩ := own
  obtain ⟨⟨otherRoot, otherKids⟩, otherSupply⟩ := other
  unfold Relations.merge
  split
  · exact ⟨hown.kind, hown.name, hown.join, hcolumns⟩
  · exact hown

theorem formed_below (table : Table) {columns : List ProjectedColumn} {kids : List RelationTree}
    (supply : Supply) (hcolumns : Shadowed columns) (hkids : ShadowedAll kids) :
    Formed ⟨.node { (ofTable table).root with columns } kids, supply⟩ :=
  ⟨rfl, rfl, rfl, shadowedAll_cons.mpr ⟨hcolumns, hkids, shadowedAll_nil⟩⟩

theorem Built.formed {relations : Relations} (h : relations.Built) : relations.Formed := by
  induction h with
  | ofTable table => exact formed_below table _ .nil shadowedAll_nil
  | @resolve r table output relations h =>
    obtain ⟨columns, kids, supply, hrun, rfl⟩ := Resolver.resolve_inv h
    obtain ⟨hcolumns, hkids⟩ := Resolver.resolveFields_shadowed output.children hrun
    exact (formed_below table supply (hcolumns .nil) hkids).anchorKeys r.schema
  | @resolvePath r table path relations h =>
    obtain ⟨kids, supply, hrun, rfl⟩ := Resolver.resolvePath_inv h
    exact (formed_below table supply .nil (Resolver.resolveSteps_shadowed hrun)).anchorKeys r.schema
  | anchorKeys s _ ih => exact ih.anchorKeys s
  | merge _ _ hown hother => exact hown.merge hother

end Relations
end ShapeSql
