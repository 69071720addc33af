import ShapeSql.Proofs.Except
import ShapeSql.Shape.QuerySpec

namespace ShapeSql

namespace QuerySpec

/-- The specification without its paging arguments. -/
def unpaged (spec : QuerySpec) : QuerySpec :=
  let others := spec.arguments.children.filter fun a => !a.label.directives.pages
  { spec with arguments := .node spec.arguments.label others }

/-- Paging arguments are numbers. -/
def PagesByNumber (spec : QuerySpec) : Prop :=
  ∀ a ∈ spec.arguments.children, a.label.directives.pages = true → a.label.type.isInteger = true

end QuerySpec

/-- What one step of unfolding does to a field: one without a shape is left as it is, one with a shape is
bound to the table of the shape, and marked cyclic or unfolded. -/
theorem FieldTree.expand_cases {shapes : Shapes} {depth : Nat} {above : List Field} {field : Field}
    {t : FieldTree} (h : expand shapes (depth + 1) above field = .ok t) :
    (field.type.shapeName? = none ∧ t = .node field []) ∨
      ∃ name shape, field.type.shapeName? = some name ∧ shapes.get? name = some shape ∧
        ((isCyclic { field with table := shape.table } name above = true ∧
            t = .node { field with table := shape.table, cyclic := true } []) ∨
          (¬isCyclic { field with table := shape.table } name above = true ∧
            ∃ kids, (shape.fields.mapM fun d =>
                expand shapes depth ({ field with table := shape.table } :: above)
                  (place d (field.path.join d.name) (some (shape.name, d.name)))) = .ok kids ∧
              t = .node { field with table := shape.table } kids)) := by
  unfold expand at h
  split at h
  · rename_i hscalar
    cases h
    exact Or.inl ⟨hscalar, rfl⟩
  · rename_i name hname
    split at h
    · cases h
    · rename_i shape hshape
      refine Or.inr ⟨name, shape, hname, hshape, ?_⟩
      simp only at h
      split at h
      · rename_i hcyclic
        cases h
        exact Or.inl ⟨hcyclic, rfl⟩
      · rename_i hopen
        obtain ⟨kids, hkids, h⟩ := except_bind_ok.mp h
        cases h
        exact Or.inr ⟨hopen, kids, hkids, rfl⟩

/-- Unfolding a field binds it to the table of its shape, and changes nothing else about it. -/
theorem FieldTree.label_expand {shapes : Shapes} {depth : Nat} {above : List Field} {field : Field}
    {t : FieldTree} (h : expand shapes depth above field = .ok t) :
    ∃ table cyclic, t.label = { field with table, cyclic } := by
  cases depth with
  | zero =>
    cases h
    exact ⟨_, _, rfl⟩
  | succ depth =>
    rcases expand_cases h with ⟨_, rfl⟩ | ⟨name, shape, _, _, ⟨_, rfl⟩ | ⟨_, kids, _, rfl⟩⟩
    · exact ⟨_, _, rfl⟩
    · exact ⟨_, _, rfl⟩
    · exact ⟨_, _, rfl⟩

/-- Without the paging arguments of a list, its tree is the same without them; each argument has the
directives and the type that it is declared with. -/
theorem FieldTree.ofFields_unpaged {ds : List FieldDef} {shapes : Shapes} {t : FieldTree}
    (h : ofFields ds shapes = .ok t) :
    ofFields (ds.filter fun d => !d.directives.pages) shapes =
        .ok (.node t.label (t.children.filter fun a => !a.label.directives.pages)) ∧
      ∀ a ∈ t.children, ∃ d ∈ ds, a.label.directives = d.directives ∧ a.label.type = d.type := by
  obtain ⟨kids, hkids, hroot⟩ := except_bind_ok.mp h
  cases hroot
  have hlabel : ∀ d a, expand shapes (depthBound shapes) [argumentRoot]
      (place d (Path.root.join d.name) none) = .ok a →
        a.label.directives = d.directives ∧ a.label.type = d.type := by
    intro d a ha
    obtain ⟨table, cyclic, hlabel⟩ := label_expand ha
    rw [hlabel]
    exact ⟨rfl, rfl⟩
  constructor
  · apply except_bind_ok.mpr
    refine ⟨_, mapM_filter_ok (fun a => !a.label.directives.pages) hkids ?_, rfl⟩
    intro d _ a ha
    rw [(hlabel d a ha).1]
  · intro a ha
    obtain ⟨d, hd, hexpand⟩ := mem_of_mapM_ok hkids ha
    exact ⟨d, hd, hlabel d a hexpand⟩

/-- Directives that page are accepted on numbers alone. -/
theorem Directives.isInteger_of_validate {d : Directives} {path : Path} {isInteger : Bool}
    (h : d.validate path isInteger = .ok ()) (hpages : d.pages = true) : isInteger = true := by
  cases isInteger with
  | true => rfl
  | false =>
    unfold validate at h
    rw [hpages] at h
    simp only [Bool.not_false, Bool.and_self, if_true] at h
    split at h
    · cases h
    · split at h
      · cases h
      · cases h

namespace SpecDeclaration

/-- The declaration without its paging arguments. -/
def unpaged (d : SpecDeclaration) : SpecDeclaration :=
  { d with arguments := d.arguments.filter fun a => !a.directives.pages }

/-- Arguments that are accepted are so one by one, and without any of them. -/
theorem checkArguments_ok {seen : List String} {ds : List FieldDef}
    (h : checkArguments seen ds = .ok ()) (keep : FieldDef → Bool) {fewer : List String}
    (hfewer : fewer ⊆ seen) : checkArguments fewer (ds.filter keep) = .ok () ∧
      ∀ d ∈ ds, d.directives.validate ⟨[d.name]⟩ d.type.isInteger = .ok () := by
  induction ds generalizing seen fewer with
  | nil => exact ⟨rfl, List.forall_mem_nil _⟩
  | cons d ds ih =>
    unfold checkArguments at h
    split at h
    · cases h
    · rename_i hnew
      obtain ⟨_, hvalid, hrest⟩ := except_bind_ok.mp h
      refine ⟨?_, List.forall_mem_cons.mpr ⟨hvalid, (ih hrest fun _ => id).2⟩⟩
      cases hkeep : keep d with
      | true =>
        rw [List.filter_cons_of_pos hkeep]
        unfold checkArguments
        have hunseen : ¬(fewer.any fun other => sameName other d.name) = true := by
          intro hany
          obtain ⟨other, hother, hname⟩ := List.any_eq_true.mp hany
          exact hnew (List.any_eq_true.mpr ⟨other, hfewer hother, hname⟩)
        rw [if_neg hunseen]
        exact except_bind_ok.mpr ⟨_, hvalid, (ih hrest (List.cons_subset_cons _ hfewer)).1⟩
      | false =>
        rw [List.filter_cons_of_neg (by rw [hkeep]; exact Bool.false_ne_true)]
        exact (ih hrest (List.Subset.trans hfewer (List.subset_cons_self _ _))).1

/-- What a declaration returns: the tree of a type for rows, and no tree for anything else. -/
inductive Yields (d : SpecDeclaration) (shapes : Shapes) : Option FieldTree → Output → Prop
  | rows {kind : Output} {type : FieldType} {tree : FieldTree}
      (hresult : d.rowResult? = some (kind, type))
      (htree : FieldTree.ofType "" type shapes = .ok tree) : Yields d shapes (some tree) kind
  | nothing (hresult : d.rowResult? = none) : Yields d shapes none
      (if d.returnsCount then .count else if d.returnsAffected then .affected else .nothing)

/-- A declaration is built to its own operation and table, the trees of its arguments, and what it
returns. -/
theorem build_inv {d : SpecDeclaration} {shapes : Shapes} {spec : QuerySpec}
    (h : d.build shapes = .ok spec) :
    ∃ arguments output kind, FieldTree.ofFields d.arguments shapes = .ok arguments ∧
      d.Yields shapes output kind ∧ spec = ⟨d.operation, d.table, arguments, output, kind⟩ := by
  unfold build at h
  simp only at h
  split at h
  · cases h
  · obtain ⟨_, _, h⟩ := except_bind_ok.mp h
    obtain ⟨arguments, harguments, h⟩ := except_bind_ok.mp h
    obtain ⟨_, _, h⟩ := except_bind_ok.mp h
    split at h
    · obtain ⟨tree, htree, h⟩ := except_bind_ok.mp h
      obtain ⟨result, hpure, h⟩ := except_bind_ok.mp h
      cases hpure
      split at h
      · cases h
      · cases h
        exact ⟨arguments, _, _, harguments, .rows ‹_› htree, rfl⟩
    · obtain ⟨result, hpure, h⟩ := except_bind_ok.mp h
      have hyields : d.Yields shapes result.1 result.2 := by
        rw [← Except.ok.inj hpure]
        exact .nothing ‹_›
      split at h
      · cases h
      · cases h
        exact ⟨arguments, _, _, harguments, hyields, rfl⟩

/-- What is accepted with a page is accepted without it: it is the same specification without its paging
arguments, which are numbers. -/
theorem build_unpaged {d : SpecDeclaration} {shapes : Shapes} {spec : QuerySpec}
    (h : d.build shapes = .ok spec) :
    d.unpaged.build shapes = .ok spec.unpaged ∧ spec.PagesByNumber := by
  unfold build at h ⊢
  simp only at h ⊢
  split at h
  · cases h
  · rename_i hresults
    obtain ⟨_, hchecked, h⟩ := except_bind_ok.mp h
    obtain ⟨arguments, harguments, h⟩ := except_bind_ok.mp h
    obtain ⟨_, hnested, h⟩ := except_bind_ok.mp h
    obtain ⟨hfewer, hvalid⟩ := checkArguments_ok hchecked (fun a => !a.directives.pages) fun _ => id
    obtain ⟨hothers, hdeclared⟩ := FieldTree.ofFields_unpaged harguments
    have hbelow : checkNested ((arguments.children.filter fun a => !a.label.directives.pages).flatMap
        fun argument => Tree.preorderAll argument.children) = .ok () := by
      apply forM_ok.mpr
      intro f hf
      obtain ⟨a, ha, hf⟩ := List.mem_flatMap.mp hf
      exact forM_ok.mp hnested f (List.mem_flatMap.mpr ⟨a, List.mem_of_mem_filter ha, hf⟩)
    have hnumbers : ∀ a ∈ arguments.children, a.label.directives.pages = true →
        a.label.type.isInteger = true := by
      intro a ha hpages
      obtain ⟨field, hfield, hdirectives, htype⟩ := hdeclared a ha
      rw [hdirectives] at hpages
      rw [htype]
      exact Directives.isInteger_of_validate (hvalid field hfield) hpages
    have hresult : d.unpaged.rowResult? = d.rowResult? := rfl
    rw [hresult]
    split at h
    · obtain ⟨tree, htree, h⟩ := except_bind_ok.mp h
      obtain ⟨result, hpure, h⟩ := except_bind_ok.mp h
      split at h
      · cases h
      · rename_i hcount
        cases h
        refine ⟨(if_neg hresults).trans (except_bind_ok.mpr ⟨_, hfewer, ?_⟩), hnumbers⟩
        refine except_bind_ok.mpr ⟨_, hothers, except_bind_ok.mpr ⟨_, hbelow, ?_⟩⟩
        exact except_bind_ok.mpr ⟨tree, htree, except_bind_ok.mpr ⟨result, hpure, if_neg hcount⟩⟩
    · obtain ⟨result, hpure, h⟩ := except_bind_ok.mp h
      split at h
      · cases h
      · rename_i hcount
        cases h
        refine ⟨(if_neg hresults).trans (except_bind_ok.mpr ⟨_, hfewer, ?_⟩), hnumbers⟩
        refine except_bind_ok.mpr ⟨_, hothers, except_bind_ok.mpr ⟨_, hbelow, ?_⟩⟩
        exact except_bind_ok.mpr ⟨result, hpure, if_neg hcount⟩

end SpecDeclaration

end ShapeSql
