import ShapeSql.Proofs.Except
import ShapeSql.Proofs.Shape.Unpaged

namespace ShapeSql

namespace Field

/-- The field without its place. -/
def unplaced (f : Field) : Field := { f with path := .root }

/-- Fields of one shape that are declared in the same way, but for their names and whether they are lists. -/
structure Alike (f g : Field) : Prop where
  shape : f.type.shapeName? = g.type.shapeName?
  directives : f.directives = g.directives
  table : f.table = g.table
  cyclic : f.cyclic = g.cyclic
  origin : f.origin = g.origin

theorem Alike.refl (f : Field) : f.Alike f := ⟨rfl, rfl, rfl, rfl, rfl⟩

theorem alike_unplaced (f : Field) : f.Alike f.unplaced := ⟨rfl, rfl, rfl, rfl, rfl⟩

end Field

namespace FieldTree

variable {shapes : Shapes} {depth : Nat} {above above' : List Field} {field field' : Field}
  {t t' : FieldTree}

theorem isCyclic_alike (h : field.Alike field') (habove : List.Forall₂ Field.Alike above above')
    (name : String) : isCyclic field name above = isCyclic field' name above' := by
  have hany : ∀ p : Field → Bool, (∀ a b : Field, a.Alike b → p a = p b) → above.any p = above'.any p := by
    intro p hp
    induction habove with
    | nil => rfl
    | cons hfirst _ ih => rw [List.any_cons, List.any_cons, hp _ _ hfirst, ih]
  unfold isCyclic
  rw [h.directives, h.origin, hany _ fun a b hab => by rw [hab.shape],
    hany (fun a => a.origin.isSome && a.origin == field'.origin) fun a b hab => by rw [hab.origin]]

/-- Trees that are made of the same items, and are the same after a change of their labels, item by item. -/
theorem mapAll_eq_of_forall₂ {α : Type} {f : Field → Field} {R S : α → FieldTree → Prop} {items : List α}
    {kids kids' : List FieldTree} (hsame : ∀ a kid kid', R a kid → S a kid' → kid.map f = kid'.map f)
    (h : List.Forall₂ R items kids) (h' : List.Forall₂ S items kids') :
    Tree.mapAll f kids = Tree.mapAll f kids' := by
  induction h generalizing kids' with
  | nil =>
    cases h'
    rfl
  | cons hfirst _ ih =>
    cases h' with
    | cons hfirst' hrest' => rw [Tree.mapAll, Tree.mapAll, hsame _ _ _ hfirst hfirst', ih hrest']

theorem place_alike (d : FieldDef) (path path' : Path) (origin : Option (String × String)) :
    (place d path origin).Alike (place d path' origin) := ⟨rfl, rfl, rfl, rfl, rfl⟩

/-- Trees of one declaration whose fields are alike differ in their places alone. -/
theorem map_unplaced_eq {d : FieldDef} {path path' : Path} {origin : Option (String × String)}
    (h : ∃ table cyclic, t.label = { place d path origin with table, cyclic })
    (h' : ∃ table cyclic, t'.label = { place d path' origin with table, cyclic })
    (hlabel : t.label.Alike t'.label)
    (hbelow : Tree.mapAll Field.unplaced t.children = Tree.mapAll Field.unplaced t'.children) :
    t.map Field.unplaced = t'.map Field.unplaced := by
  obtain ⟨label, kids⟩ := t
  obtain ⟨label', kids'⟩ := t'
  obtain ⟨table, cyclic, rfl⟩ := h
  obtain ⟨table', cyclic', rfl⟩ := h'
  obtain ⟨-, -, rfl, rfl, -⟩ := hlabel
  rw [Tree.map, Tree.map]
  exact congrArg _ hbelow

/-- Below fields that are alike stand the same fields, at other places. -/
theorem expand_alike (h : field.Alike field') (habove : List.Forall₂ Field.Alike above above')
    (ht : expand shapes depth above field = .ok t) (ht' : expand shapes depth above' field' = .ok t') :
    t.label.Alike t'.label ∧
      Tree.mapAll Field.unplaced t.children = Tree.mapAll Field.unplaced t'.children := by
  induction depth generalizing above above' field field' t t' with
  | zero =>
    cases ht
    cases ht'
    exact ⟨h, rfl⟩
  | succ depth ih =>
    rcases expand_cases ht with ⟨hnone, rfl⟩ | ⟨name, shape, hname, hshape, hexpanded⟩
    · rcases expand_cases ht' with ⟨_, rfl⟩ | ⟨name', _, hname', _⟩
      · exact ⟨h, rfl⟩
      · cases hnone.symm.trans (h.shape.trans hname')
    · rcases expand_cases ht' with ⟨hnone, _⟩ | ⟨name', shape', hname', hshape', hexpanded'⟩
      · cases hname.symm.trans (h.shape.trans hnone)
      · cases hname.symm.trans (h.shape.trans hname')
        cases hshape.symm.trans hshape'
        have hbound : Field.Alike { field with table := shape.table }
            { field' with table := shape.table } :=
          ⟨h.shape, h.directives, rfl, h.cyclic, h.origin⟩
        rw [isCyclic_alike hbound habove] at hexpanded
        rcases hexpanded with ⟨hcyclic, rfl⟩ | ⟨hopen, kids, hkids, rfl⟩
        · rcases hexpanded' with ⟨_, rfl⟩ | ⟨hopen, _⟩
          · exact ⟨⟨h.shape, h.directives, rfl, rfl, h.origin⟩, rfl⟩
          · exact absurd hcyclic hopen
        · rcases hexpanded' with ⟨hcyclic, _⟩ | ⟨_, kids', hkids', rfl⟩
          · exact absurd hcyclic hopen
          · refine ⟨hbound, ?_⟩
            refine mapAll_eq_of_forall₂ (fun d kid kid' hkid hkid' => ?_) (forall₂_of_mapM_ok hkids)
              (forall₂_of_mapM_ok hkids')
            obtain ⟨hlabel, hbelow⟩ := ih (place_alike d _ _ _) (.cons hbound habove) hkid hkid'
            exact map_unplaced_eq (label_expand hkid) (label_expand hkid') hlabel hbelow

/-- What argument lists come to that differ in one argument: the argument in its place on either side, the
same fields below it, and the same arguments around it. -/
structure ArgumentsAlike (d d' : FieldDef) (t t' : FieldTree) (before after : List FieldTree)
    (argument argument' : FieldTree) : Prop where
  children : t.children = before ++ argument :: after
  children' : t'.children = before ++ argument' :: after
  placed : ∃ table cyclic, argument.label = { place d ⟨[d.name]⟩ none with table, cyclic }
  placed' : ∃ table cyclic, argument'.label = { place d' ⟨[d'.name]⟩ none with table, cyclic }
  label : argument.label.Alike argument'.label
  below : Tree.mapAll Field.unplaced argument.children = Tree.mapAll Field.unplaced argument'.children

/-- Argument for argument, the lists are alike. -/
theorem ArgumentsAlike.labels {d d' : FieldDef} {before after : List FieldTree} {argument argument' : FieldTree}
    (h : ArgumentsAlike d d' t t' before after argument argument') :
    List.Forall₂ (fun kid kid' : FieldTree => kid.label.Alike kid'.label) t.children t'.children := by
  have hself : ∀ kids : List FieldTree, List.Forall₂
      (fun kid kid' : FieldTree => kid.label.Alike kid'.label) kids kids := fun kids =>
    List.forall₂_same.mpr fun kid _ => .refl kid.label
  rw [h.children, h.children']
  exact List.rel_append (hself before) (.cons h.label (hself after))

theorem ofFields_alike {d d' : FieldDef} {before after : List FieldDef}
    (hshape : d.type.shapeName? = d'.type.shapeName?) (hdirectives : d.directives = d'.directives)
    (ht : ofFields (before ++ d :: after) shapes = .ok t)
    (ht' : ofFields (before ++ d' :: after) shapes = .ok t') :
    ∃ others others' argument argument', ArgumentsAlike d d' t t' others others' argument argument' ∧
      ∀ other ∈ others ++ others', ∃ f ∈ before ++ after, other.label.directives = f.directives := by
  have hdeclared : ∀ {fields : List FieldDef} {kids : List FieldTree}, (fields.mapM fun f =>
      expand shapes (depthBound shapes) [argumentRoot] (place f (Path.root.join f.name) none)) = .ok kids →
        ∀ kid ∈ kids, ∃ f ∈ fields, kid.label.directives = f.directives := by
    intro fields kids hkids kid hkid
    obtain ⟨f, hf, hexpand⟩ := mem_of_mapM_ok hkids hkid
    obtain ⟨_, _, hlabel⟩ := label_expand hexpand
    exact ⟨f, hf, by rw [hlabel]; rfl⟩
  obtain ⟨kids, hkids, hroot⟩ := except_bind_ok.mp ht
  obtain ⟨kids', hkids', hroot'⟩ := except_bind_ok.mp ht'
  cases hroot
  cases hroot'
  obtain ⟨others, argument, others', hothers, hargument, hothers', rfl⟩ := mapM_around_ok hkids
  obtain ⟨same, argument', same', hsame, hargument', hsame', rfl⟩ := mapM_around_ok hkids'
  cases hothers.symm.trans hsame
  cases hothers'.symm.trans hsame'
  have halike : Field.Alike (place d (Path.root.join d.name) none)
      (place d' (Path.root.join d'.name) none) := ⟨hshape, hdirectives, rfl, rfl, rfl⟩
  obtain ⟨hlabel, hbelow⟩ :=
    expand_alike halike (.cons (.refl argumentRoot) .nil) hargument hargument'
  refine ⟨others, others', argument, argument',
    ⟨rfl, rfl, label_expand hargument, label_expand hargument', hlabel, hbelow⟩, ?_⟩
  intro other hother
  rcases List.mem_append.mp hother with hbefore | hafter
  · obtain ⟨f, hf, hsame⟩ := hdeclared hothers other hbefore
    exact ⟨f, List.mem_append_left _ hf, hsame⟩
  · obtain ⟨f, hf, hsame⟩ := hdeclared hothers' other hafter
    exact ⟨f, List.mem_append_right _ hf, hsame⟩

end FieldTree

/-- What a declaration is built to. The output depends on what it returns alone. -/
theorem SpecDeclaration.build_parts {d : SpecDeclaration} {shapes : Shapes} {spec : QuerySpec}
    (h : d.build shapes = .ok spec) : spec.operation = d.operation ∧ spec.table = d.table ∧
      FieldTree.ofFields d.arguments shapes = .ok spec.arguments ∧
      spec.output = d.rowResult?.bind fun result =>
        (FieldTree.ofType "" result.2 shapes).toOption := by
  obtain ⟨arguments, output, kind, harguments, hyields, rfl⟩ := build_inv h
  refine ⟨rfl, rfl, harguments, ?_⟩
  cases hyields with
  | rows hresult htree =>
    rw [hresult, Option.bind_some, htree]
    rfl
  | nothing hresult =>
    rw [hresult]
    rfl

end ShapeSql
