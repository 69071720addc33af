import ShapeSql.Proofs.Except
import ShapeSql.Relation.Resolve

namespace ShapeSql

namespace Resolver

variable {r : Resolver}

/-- The place of a field is reached by its via-relation, by a link to the table of its shape, or without a
join where the shape is embedded. -/
theorem stepsTo_cases {table : Table} {field : Field} {steps : List Step}
    (h : r.stepsTo table field = .ok steps) :
    (∃ v legs, field.directives.via = some v ∧ r.via table v field.path = .ok legs ∧
      steps = Step.ofLegs r.schema field.isList legs) ∨
    field.directives.via = none ∧
      ((∃ target link, r.shapeTable field = .ok (some target) ∧
          r.link table target field.name field.isList field.path = .ok link ∧
          steps = Step.ofLink r.schema target link field.isList) ∨
        r.shapeTable field = .ok none ∧ steps = [⟨table, [], .embedded⟩]) := by
  unfold stepsTo at h
  split at h
  · rename_i v hvia
    obtain ⟨legs, hlegs, h⟩ := except_bind_ok.mp h
    cases h
    exact Or.inl ⟨v, legs, hvia, hlegs, rfl⟩
  · rename_i hvia
    refine Or.inr ⟨hvia, ?_⟩
    obtain ⟨found, hfound, h⟩ := except_bind_ok.mp h
    split at h
    · rename_i target
      obtain ⟨link, hlink, h⟩ := except_bind_ok.mp h
      cases h
      exact Or.inl ⟨target, link, hfound, hlink, rfl⟩
    · cases h
      exact Or.inr ⟨hfound, rfl⟩

/-- A field that is excluded or cyclic adds nothing, a scalar field adds a column, and any other sets up
its places, with the fields below it at the last of them. -/
inductive Resolves (r : Resolver) (table : Table) (aliasName : String)
    (columns : List ProjectedColumn) (field : Field) (kids : List FieldTree) (u : Supply) :
    List ProjectedColumn × List RelationTree → Supply → Prop
  | excluded (hexcluded : field.directives.exclude = true) :
    Resolves r table aliasName columns field kids u (columns, []) u
  | scalar {column : Column} (hshown : field.directives.exclude = false)
      (hscalar : field.isScalar = true) (hcolumn : r.scalarColumn table field = .ok column) :
    Resolves r table aliasName columns field kids u
      (Relation.project columns column.id field.name, []) u
  | cyclic (hshown : field.directives.exclude = false) (hshape : field.isScalar = false)
      (hcyclic : field.cyclic = true) :
    Resolves r table aliasName columns field kids u (columns, []) u
  | places {steps : List Step} {places : List Relation} {between u' : Supply}
      {own : List ProjectedColumn} {below : List RelationTree}
      (hshown : field.directives.exclude = false) (hshape : field.isScalar = false)
      (hacyclic : field.cyclic = false) (hsteps : r.stepsTo table field = .ok steps)
      (hplaces : (Resolving.setUp field.name field.path aliasName steps).run u = .ok (places, between))
      (hbelow : (r.resolveFields ((steps.getLast?.map Step.table).getD table)
        ((places.getLast?.map Relation.aliasName).getD aliasName) [] kids).run between =
          .ok ((own, below), u')) :
    Resolves r table aliasName columns field kids u (columns, nested own below places) u'

theorem resolves_of_resolveField {table : Table} {aliasName : String}
    {columns : List ProjectedColumn} {field : Field} {kids : List FieldTree} {u u' : Supply}
    {result : List ProjectedColumn × List RelationTree}
    (hrun : (r.resolveField table aliasName columns (.node field kids)).run u = .ok (result, u')) :
    r.Resolves table aliasName columns field kids u result u' := by
  unfold resolveField at hrun
  cases hexclude : field.directives.exclude with
  | true =>
    rw [if_pos hexclude, run_pure_ok] at hrun
    obtain ⟨rfl, rfl⟩ := hrun
    exact .excluded hexclude
  | false =>
    rw [if_neg (Bool.eq_false_iff.mp hexclude)] at hrun
    cases hscalar : field.isScalar with
    | true =>
      rw [if_pos hscalar] at hrun
      simp only [run_bind_ok, run_lift_ok, run_pure_ok] at hrun
      obtain ⟨column, _, ⟨hcolumn, rfl⟩, rfl, rfl⟩ := hrun
      exact .scalar hexclude hscalar hcolumn
    | false =>
      rw [if_neg (Bool.eq_false_iff.mp hscalar)] at hrun
      cases hcyclic : field.cyclic with
      | true =>
        rw [if_pos hcyclic, run_pure_ok] at hrun
        obtain ⟨rfl, rfl⟩ := hrun
        exact .cyclic hexclude hscalar hcyclic
      | false =>
        rw [if_neg (Bool.eq_false_iff.mp hcyclic)] at hrun
        simp only [run_bind_ok, run_lift_ok, run_pure_ok] at hrun
        obtain ⟨steps, _, ⟨hsteps, rfl⟩, places, between, hplaces, ⟨own, below⟩, _, hbelow, rfl, rfl⟩ :=
          hrun
        exact .places hexclude hscalar hcyclic hsteps hplaces hbelow

/-- An output is resolved below the root of its table, and the keys of what it reads are anchored. -/
theorem resolve_inv {table : Table} {output : FieldTree} {relations : Relations}
    (h : r.resolve table output = .ok relations) :
    ∃ columns kids supply, (r.resolveFields table (Relations.ofTable table).root.aliasName []
        output.children).run (Relations.ofTable table).supply = .ok ((columns, kids), supply) ∧
      relations = Relations.anchorKeys r.schema
        ⟨.node { (Relations.ofTable table).root with columns } kids, supply⟩ := by
  unfold resolve at h
  obtain ⟨⟨⟨columns, kids⟩, supply⟩, hrun, h⟩ := except_bind_ok.mp h
  cases h
  exact ⟨columns, kids, supply, hrun, rfl⟩

/-- The first step of a path leads to the table of its name, and the others go on from there. -/
theorem resolveSteps_cons {table : Table} {aliasName : String} {walked : Path} {step : String}
    {rest : List String} {u u' : Supply} {trees : List RelationTree}
    (hrun : (r.resolveSteps table aliasName walked (step :: rest)).run u = .ok (trees, u')) :
    ∃ target link places between below, r.findTable step = some target ∧
      r.link table target step (r.namesCollection step target) (walked.join step) = .ok link ∧
      (Resolving.setUp step (walked.join step) aliasName
        (Step.ofLink r.schema target link false)).run u = .ok (places, between) ∧
      (r.resolveSteps target ((places.getLast?.map Relation.aliasName).getD aliasName)
        (walked.join step) rest).run between = .ok (below, u') ∧
      trees = nested [] below places := by
  unfold resolveSteps at hrun
  simp only at hrun
  split at hrun
  · rw [run_throw_ok] at hrun
    exact hrun.elim
  · rename_i target hfound
    simp only [run_bind_ok, run_lift_ok, run_pure_ok] at hrun
    obtain ⟨link, _, ⟨hlink, rfl⟩, places, between, hplaces, below, _, hbelow, rfl, rfl⟩ := hrun
    exact ⟨target, link, places, between, below, hfound, hlink, hplaces, hbelow, rfl⟩

/-- So is a path, which reads no columns. -/
theorem resolvePath_inv {table : Table} {path : Path} {relations : Relations}
    (h : r.resolvePath table path = .ok relations) :
    ∃ kids supply, (r.resolveSteps table (Relations.ofTable table).root.aliasName .root
        path.steps).run (Relations.ofTable table).supply = .ok (kids, supply) ∧
      relations = Relations.anchorKeys r.schema
        ⟨.node (Relations.ofTable table).root kids, supply⟩ := by
  unfold resolvePath at h
  obtain ⟨⟨kids, supply⟩, hrun, h⟩ := except_bind_ok.mp h
  cases h
  exact ⟨kids, supply, hrun, rfl⟩

end Resolver

end ShapeSql
