import ShapeSql.Proofs.Relation.Nesting

namespace ShapeSql

namespace FieldTree

/-- The names of the fields that are shown, in order. -/
def shownNames : List FieldTree → List String
  | [] => []
  | t :: ts =>
    if t.label.directives.exclude then shownNames ts else t.label.name :: shownNames ts

theorem shownNames_eq (ts : List FieldTree) : shownNames ts =
    (ts.filter fun t => !t.label.directives.exclude).map fun t => t.label.name := by
  induction ts with
  | nil => rfl
  | cons t ts ih =>
    rw [shownNames, List.filter_cons, ih]
    cases t.label.directives.exclude with
    | true => rfl
    | false => rfl

theorem shownNames_cons (t : FieldTree) (ts : List FieldTree) :
    shownNames (t :: ts) = shownNames [t] ++ shownNames ts := by
  simp only [shownNames]
  split
  · rfl
  · rfl

theorem shownNames_singleton {t : FieldTree} (h : t.label.directives.exclude = false) :
    shownNames [t] = [t.label.name] := by
  rw [shownNames, if_neg (Bool.eq_false_iff.mp h), shownNames]

mutual

/-- No two fields that are shown beside each other have one name. -/
def NamesApart : FieldTree → Prop
  | .node _ kids => (shownNames kids).Nodup ∧ NamesApartAll kids

def NamesApartAll : List FieldTree → Prop
  | [] => True
  | t :: ts => (t.label.directives.exclude = false → NamesApart t) ∧ NamesApartAll ts

end

mutual

def decidableNamesApart : (t : FieldTree) → Decidable t.NamesApart
  | .node _ kids =>
    have := decidableNamesApartAll kids
    inferInstanceAs (Decidable (_ ∧ _))

def decidableNamesApartAll : (ts : List FieldTree) → Decidable (NamesApartAll ts)
  | [] => inferInstanceAs (Decidable True)
  | t :: ts =>
    have := decidableNamesApart t
    have := decidableNamesApartAll ts
    inferInstanceAs (Decidable ((_ → _) ∧ _))

end

instance : DecidablePred NamesApart := decidableNamesApart

end FieldTree

section Kept

/-- The same place, with at least the columns that it had. -/
structure Relation.KeptAs (before after : Relation) : Prop where
  table : after.table = before.table
  path : after.path = before.path
  aliasName : after.aliasName = before.aliasName
  kind : after.kind = before.kind
  columns : ∀ c ∈ before.columns, ∃ d ∈ after.columns, d.name = c.name ∧ d.column = c.column

theorem Relation.KeptAs.refl (r : Relation) : r.KeptAs r :=
  ⟨rfl, rfl, rfl, rfl, fun c hc => ⟨c, hc, rfl, rfl⟩⟩

theorem Relation.KeptAs.trans {a b c : Relation} (hab : a.KeptAs b) (hbc : b.KeptAs c) :
    a.KeptAs c where
  table := hbc.table.trans hab.table
  path := hbc.path.trans hab.path
  aliasName := hbc.aliasName.trans hab.aliasName
  kind := hbc.kind.trans hab.kind
  columns := by
    intro column hcolumn
    obtain ⟨other, hother, hname, hid⟩ := hab.columns column hcolumn
    obtain ⟨found, hfound, hname', hid'⟩ := hbc.columns other hother
    exact ⟨found, hfound, hname'.trans hname, hid'.trans hid⟩

mutual

/-- Each place of the first tree stands in the second one where it stood, with its columns. -/
def Kept : RelationTree → RelationTree → Prop
  | .node r kids, t => r.KeptAs t.label ∧ KeptAll kids t.children

def KeptAll : List RelationTree → List RelationTree → Prop
  | [], _ => True
  | t :: ts, others => (∃ other ∈ others, Kept t other) ∧ KeptAll ts others

end

theorem keptAll_iff {ts others : List RelationTree} :
    KeptAll ts others ↔ ∀ t ∈ ts, ∃ other ∈ others, Kept t other := by
  induction ts with
  | nil => exact ⟨fun _ => nofun, fun _ => trivial⟩
  | cons t ts ih => rw [KeptAll, List.forall_mem_cons, ih]

mutual

theorem kept_refl : ∀ t : RelationTree, Kept t t
  | .node r kids => ⟨.refl r, keptAll_iff.mpr fun t ht => ⟨t, ht, keptAll_refl kids t ht⟩⟩

theorem keptAll_refl : ∀ ts : List RelationTree, ∀ t ∈ ts, Kept t t
  | [] => nofun
  | t :: ts => List.forall_mem_cons.mpr ⟨kept_refl t, keptAll_refl ts⟩

end

mutual

theorem kept_trans : ∀ (a : RelationTree) {b c : RelationTree}, Kept a b → Kept b c → Kept a c
  | .node _ kids, .node _ _, .node _ _, ⟨hab, hkids⟩, ⟨hbc, hmiddle⟩ =>
    ⟨hab.trans hbc, keptAll_trans kids hkids hmiddle⟩

theorem keptAll_trans : ∀ (as : List RelationTree) {bs cs : List RelationTree},
    KeptAll as bs → KeptAll bs cs → KeptAll as cs
  | [], _, _, _, _ => trivial
  | a :: as, _, _, ⟨⟨b, hb, hab⟩, has⟩, hbc => by
    obtain ⟨c, hc, hkept⟩ := keptAll_iff.mp hbc b hb
    exact ⟨⟨c, hc, kept_trans a hab hkept⟩, keptAll_trans as has hbc⟩

end

/-- A column that is united into others leaves all of them there. -/
theorem Relations.mem_uniteColumn (own : List ProjectedColumn) (c : ProjectedColumn) :
    ∀ d ∈ own, ∃ e ∈ uniteColumn own c, e.name = d.name ∧ e.column = d.column := by
  induction own with
  | nil => exact nofun
  | cons first rest ih =>
    intro d hd
    rw [uniteColumn]
    split
    · rcases List.mem_cons.mp hd with rfl | hd
      · exact ⟨_, List.mem_cons_self, rfl, rfl⟩
      · exact ⟨d, List.mem_cons_of_mem _ hd, rfl, rfl⟩
    · rcases List.mem_cons.mp hd with rfl | hd
      · exact ⟨d, List.mem_cons_self, rfl, rfl⟩
      · obtain ⟨e, he, hsame⟩ := ih d hd
        exact ⟨e, List.mem_cons_of_mem _ he, hsame⟩

theorem Relation.keptAs_united (r : Relation) (other : List ProjectedColumn) :
    r.KeptAs { r with columns := Relations.uniteColumns r.columns other } := by
  refine ⟨rfl, rfl, rfl, rfl, ?_⟩
  show ∀ c ∈ r.columns, ∃ d ∈ Relations.uniteColumns r.columns other, _
  rw [Relations.uniteColumns]
  generalize r.columns = own
  induction other generalizing own with
  | nil => exact fun c hc => ⟨c, hc, rfl, rfl⟩
  | cons first rest ih =>
    intro c hc
    obtain ⟨d, hd, hname, hid⟩ := Relations.mem_uniteColumn own first c hc
    obtain ⟨e, he, hname', hid'⟩ := ih (Relations.uniteColumn own first) d hd
    exact ⟨e, he, hname'.trans hname, hid'.trans hid⟩

mutual

theorem mergeTree_keeps : ∀ (other own : RelationTree) (supply : Supply),
    Kept own (Relations.mergeTree own other supply).value
  | .node r kids, .node label children, supply => by
    rw [Relations.mergeTree]
    exact ⟨label.keptAs_united r.columns, mergeTrees_keeps kids label.aliasName children supply⟩

theorem mergeTrees_keeps : ∀ (others : List RelationTree) (parentAlias : String)
    (own : List RelationTree) (supply : Supply),
    KeptAll own (Relations.mergeTrees parentAlias own others supply).value
  | [], _, own, _ => keptAll_iff.mpr fun t ht => ⟨t, ht, kept_refl t⟩
  | t :: ts, parentAlias, own, supply => by
    rcases Relations.mergeTrees_cons parentAlias own t ts supply with ⟨_, h⟩ |
      ⟨before, label, children, behind, rfl, _, ⟨_, h⟩ | ⟨join, _, hplaced⟩⟩
    · rw [h]
      have hrest := mergeTrees_keeps ts parentAlias
        (own ++ [(Relations.copyTree parentAlias t supply).1])
        (Relations.copyTree parentAlias t supply).2
      exact keptAll_iff.mpr fun kid hkid =>
        keptAll_iff.mp hrest kid (List.mem_append_left _ hkid)
    · rw [h]
      exact keptAll_iff.mpr fun t ht => ⟨t, ht, kept_refl t⟩
    · have hjoined : Kept (.node label children) (.node { label with join } children) :=
        ⟨⟨rfl, rfl, rfl, rfl, fun c hc => ⟨c, hc, rfl, rfl⟩⟩,
          keptAll_iff.mpr fun t ht => ⟨t, ht, kept_refl t⟩⟩
      have hmerged := kept_trans _ hjoined
        (mergeTree_keeps t (.node { label with join } children) supply)
      have hset : KeptAll (before ++ .node label children :: behind) (before ++
          (Relations.mergeTree (.node { label with join } children) t supply).value :: behind) := by
        rw [keptAll_iff, List.forall_mem_append, List.forall_mem_cons]
        refine ⟨fun kid hkid => ⟨kid, List.mem_append_left _ hkid, kept_refl kid⟩,
          ⟨_, List.mem_append_right _ List.mem_cons_self, hmerged⟩, fun kid hkid => ?_⟩
        exact ⟨kid, List.mem_append_right _ (List.mem_cons_of_mem _ hkid), kept_refl kid⟩
      rcases hplaced with ⟨_, _, h⟩ | ⟨_, h⟩
      · rw [h]
        exact hset
      · rw [h]
        exact keptAll_trans _ hset (mergeTrees_keeps ts parentAlias _ _)

end

theorem Relations.merged_keeps {own other relations : Relations}
    (h : own.merged other = .ok relations) : Kept own.tree relations.tree := by
  obtain ⟨_, _, rfl⟩ := merged_inv h
  exact mergeTree_keeps other.tree own.tree own.supply

theorem Relation.mem_anchorColumns (s : Schema) (keys : List ColumnId) {columns : List ProjectedColumn}
    {c : ProjectedColumn} (hc : c ∈ columns) : c ∈ keys.foldl (anchorColumn s) columns := by
  induction keys generalizing columns with
  | nil => exact hc
  | cons key keys ih =>
    apply ih
    unfold anchorColumn
    split
    · exact hc
    · exact List.mem_append_left _ hc

theorem Relation.keptAs_anchorKey (s : Schema) (r : Relation) : r.KeptAs (r.anchorKey s) := by
  unfold anchorKey
  split
  · exact ⟨rfl, rfl, rfl, rfl, fun c hc => ⟨c, mem_anchorColumns s _ hc, rfl, rfl⟩⟩
  · exact .refl r

mutual

theorem kept_anchorKeys (s : Schema) : ∀ t : RelationTree, Kept t (t.map (Relation.anchorKey s))
  | .node r kids => ⟨r.keptAs_anchorKey s, keptAll_anchorKeys s kids⟩

theorem keptAll_anchorKeys (s : Schema) : ∀ ts : List RelationTree,
    KeptAll ts (Tree.mapAll (Relation.anchorKey s) ts)
  | [] => trivial
  | t :: ts => by
    refine ⟨⟨_, List.mem_cons_self, kept_anchorKeys s t⟩, keptAll_iff.mpr fun other hother => ?_⟩
    obtain ⟨found, hfound, hkept⟩ := keptAll_iff.mp (keptAll_anchorKeys s ts) other hother
    exact ⟨found, List.mem_cons_of_mem _ hfound, hkept⟩

end

end Kept

section Hosted

/-- The places that a tree shows first: its root, or those below a junction or hop. -/
inductive Shows : RelationTree → RelationTree → Prop where
  | place {r : Relation} {kids : List RelationTree} :
    r.isTransparent = false → Shows (.node r kids) (.node r kids)
  | through {r : Relation} {kids : List RelationTree} {t shown : RelationTree} :
    r.isTransparent = true → t ∈ kids → Shows t shown → Shows (.node r kids) shown

theorem Relation.isTransparent_of_kind {a b : Relation} (h : a.kind = b.kind) :
    a.isTransparent = b.isTransparent := by
  simp only [isTransparent, h]

theorem Relation.isEmbedded_of_kind {a b : Relation} (h : a.kind = b.kind) :
    a.isEmbedded = b.isEmbedded := by
  simp only [isEmbedded, h]

theorem Shows.label {t shown : RelationTree} (h : Shows t shown) :
    shown.label.isTransparent = false := by
  induction h with
  | place hplace => exact hplace
  | through _ _ _ ih => exact ih

theorem Shows.kept {t shown : RelationTree} (h : Shows t shown) :
    ∀ {other : RelationTree}, Kept t other → ∃ found, Shows other found ∧ Kept shown found := by
  induction h with
  | place hplace =>
    intro other hkept
    obtain ⟨label, children⟩ := other
    have htransparent := Relation.isTransparent_of_kind hkept.1.kind
    exact ⟨_, .place (htransparent.trans hplace), hkept⟩
  | through hthrough ht _ ih =>
    intro other hkept
    obtain ⟨label, children⟩ := other
    have htransparent := Relation.isTransparent_of_kind hkept.1.kind
    obtain ⟨kid, hkid, hbelow⟩ := keptAll_iff.mp hkept.2 _ ht
    obtain ⟨found, hshows, hfound⟩ := ih hbelow
    exact ⟨found, .through (htransparent.trans hthrough) hkid hshows, hfound⟩

mutual

/-- A shown field stands at a place: a scalar one is a column of it, and one with a shape has a place of
its own below, where the fields of the shape stand. -/
def Hosted (r : Resolver) (place : Relation) (trees : List RelationTree) : FieldTree → Prop
  | .node field kids =>
    field.directives.exclude = false →
      (field.isScalar = true →
        ∃ column, r.scalarColumn (r.schema.table place.table) field = .ok column ∧
          ∃ c ∈ place.columns, c.name = field.name ∧ c.column = column.id) ∧
      (field.isScalar = false → field.cyclic = false →
        ∃ inner below, (∃ t ∈ trees, Shows t (.node inner below)) ∧ inner.path = field.path ∧
          (inner.isEmbedded = true →
            field.directives.via = none ∧ r.shapeTable field = .ok none) ∧
          HostedAll r inner below kids)

def HostedAll (r : Resolver) (place : Relation) (trees : List RelationTree) :
    List FieldTree → Prop
  | [] => True
  | t :: ts => Hosted r place trees t ∧ HostedAll r place trees ts

end

mutual

theorem hosted_mono {r : Resolver} : ∀ (t : FieldTree) {place place' : Relation}
    {trees trees' : List RelationTree}, place.KeptAs place' → KeptAll trees trees' →
    Hosted r place trees t → Hosted r place' trees' t
  | .node field kids, place, place', trees, trees', hplace, htrees, h => by
    intro hexclude
    obtain ⟨hscalar, hshape⟩ := h hexclude
    constructor
    · intro his
      obtain ⟨column, hcolumn, c, hc, hname, hid⟩ := hscalar his
      obtain ⟨d, hd, hname', hid'⟩ := hplace.columns c hc
      exact ⟨column, hplace.table ▸ hcolumn, d, hd, hname'.trans hname, hid'.trans hid⟩
    · intro hnot hcyclic
      obtain ⟨inner, below, ⟨t, ht, hshows⟩, hpath, hembedded, hkids⟩ := hshape hnot hcyclic
      obtain ⟨other, hother, hkept⟩ := keptAll_iff.mp htrees t ht
      obtain ⟨⟨found, children⟩, hfound, hinner⟩ := hshows.kept hkept
      refine ⟨found, children, ⟨other, hother, hfound⟩, hinner.1.path.trans hpath, ?_,
        hostedAll_mono kids hinner.1 hinner.2 hkids⟩
      intro his
      exact hembedded ((Relation.isEmbedded_of_kind hinner.1.kind).symm.trans his)

theorem hostedAll_mono {r : Resolver} : ∀ (ts : List FieldTree) {place place' : Relation}
    {trees trees' : List RelationTree}, place.KeptAs place' → KeptAll trees trees' →
    HostedAll r place trees ts → HostedAll r place' trees' ts
  | [], _, _, _, _, _, _, _ => trivial
  | t :: ts, _, _, _, _, hplace, htrees, ⟨ht, hts⟩ =>
    ⟨hosted_mono t hplace htrees ht, hostedAll_mono ts hplace htrees hts⟩

end

end Hosted

section Resolved

/-- A junction or a hop, which a field only passes on its way. -/
def RelationKind.IsPassed (kind : RelationKind) : Prop := kind = .junction ∨ kind = .hop

theorem Relation.isTransparent_iff (r : Relation) : r.isTransparent = true ↔ r.kind.IsPassed := by
  cases hkind : r.kind <;> simp [isTransparent, RelationKind.IsPassed, hkind]

namespace Step

/-- The way to a field's place: junctions and hops, and the step to the place itself. -/
def Leads (steps : List Step) (last : Step) : Prop :=
  ∃ passed, steps = passed ++ [last] ∧ (∀ s ∈ passed, s.kind.IsPassed) ∧ ¬last.kind.IsPassed

theorem ofLink_leads (s : Schema) (target : Table) (link : Link) (list : Bool) :
    ∃ last, Leads (ofLink s target link list) last ∧ last.kind ≠ .embedded := by
  have hnavigation : ∀ many, ¬(RelationKind.navigation many).IsPassed := by
    rintro many (h | h)
    · cases h
    · cases h
  cases link with
  | parentHolds pairs | childHolds pairs =>
    exact ⟨_, ⟨[], rfl, List.forall_mem_nil _, hnavigation _⟩, nofun⟩
  | junction table toParent toChild =>
    exact ⟨_, ⟨[_], rfl, List.forall_mem_singleton.mpr (Or.inl rfl), hnavigation _⟩, nofun⟩

theorem ofLegs_leads (s : Schema) (list : Bool) {legs : List Leg} (hlegs : legs ≠ []) :
    ∃ last, Leads (ofLegs s list legs) last ∧ last.kind ≠ .embedded := by
  induction legs with
  | nil => exact absurd rfl hlegs
  | cons leg rest ih =>
    cases rest with
    | nil =>
      refine ⟨_, ⟨[], rfl, List.forall_mem_nil _, ?_⟩, nofun⟩
      rintro (h | h)
      · cases h
      · cases h
    | cons second rest =>
      obtain ⟨last, ⟨passed, hsteps, hpassed, hlast⟩, hplace⟩ := ih (List.cons_ne_nil _ _)
      refine ⟨last, ⟨_ :: passed, congrArg (List.cons _) hsteps, ?_, hlast⟩, hplace⟩
      exact List.forall_mem_cons.mpr ⟨Or.inr rfl, hpassed⟩

end Step

namespace Resolving

/-- The places of a way: what it passes, and the place that it leads to. -/
theorem setUp_leads {name : String} {path : Path} {parentAlias : String} {steps : List Step}
    {last : Step} (hleads : Step.Leads steps last) {u u' : Supply} {places : List Relation}
    (hrun : (setUp name path parentAlias steps).run u = .ok (places, u')) :
    ∃ passed place, places = passed ++ [place] ∧ (∀ q ∈ passed, q.isTransparent = true) ∧
      place.isTransparent = false ∧ place.path = path ∧ place.kind = last.kind ∧
      place.table = last.table.id := by
  obtain ⟨before, rfl, hbefore, hlast⟩ := hleads
  induction before generalizing parentAlias u places with
  | nil =>
    simp only [List.nil_append, setUp, run_bind_ok, run_pure_ok, run_modifyGet_ok] at hrun
    obtain ⟨relation, between, hrelation, _, _, ⟨rfl, rfl⟩, rfl, rfl⟩ := hrun
    have hsame := u.path_relation last.table.id name path last.join last.kind
      (last.desiredAlias path) parentAlias
    have htable := u.table_relation last.table.id name path last.join last.kind
      (last.desiredAlias path) parentAlias
    rw [hrelation] at hsame htable
    refine ⟨[], relation, rfl, List.forall_mem_nil _, ?_, hsame.1, hsame.2.1, htable⟩
    rw [Bool.eq_false_iff, ne_eq, Relation.isTransparent_iff, hsame.2.1]
    exact hlast
  | cons step rest ih =>
    simp only [List.cons_append, setUp, run_bind_ok, run_pure_ok, run_modifyGet_ok] at hrun
    obtain ⟨relation, between, hrelation, others, after, hothers, rfl, rfl⟩ := hrun
    obtain ⟨hstep, hrest⟩ := List.forall_mem_cons.mp hbefore
    obtain ⟨passed, place, rfl, hpassed, hplace⟩ := ih hothers hrest
    have hsame := u.path_relation step.table.id name path step.join step.kind
      (step.desiredAlias path) parentAlias
    rw [hrelation] at hsame
    refine ⟨relation :: passed, place, rfl, List.forall_mem_cons.mpr ⟨?_, hpassed⟩, hplace⟩
    rw [Relation.isTransparent_iff, hsame.2.1]
    exact hstep

end Resolving

/-- Past junctions and hops the places of a way show the one that it leads to. -/
theorem nested_shows (columns : List ProjectedColumn) (kids : List RelationTree)
    {passed : List Relation} {place : Relation} (hpassed : ∀ q ∈ passed, q.isTransparent = true)
    (hplace : place.isTransparent = false) :
    ∃ t ∈ nested columns kids (passed ++ [place]),
      Shows t (.node { place with columns } kids) := by
  induction passed with
  | nil => exact ⟨_, List.mem_singleton.mpr rfl, .place hplace⟩
  | cons q rest ih =>
    obtain ⟨hq, hrest⟩ := List.forall_mem_cons.mp hpassed
    obtain ⟨t, ht, hshows⟩ := ih hrest
    refine ⟨.node q (nested columns kids (rest ++ [place])), ?_, .through hq ht hshows⟩
    cases hall : rest ++ [place] with
    | nil => exact absurd hall (List.append_ne_nil_of_right_ne_nil _ (List.cons_ne_nil _ _))
    | cons second others =>
      rw [List.cons_append, hall, nested]
      · exact List.mem_singleton.mpr rfl
      · intro hnone
        cases hnone

namespace Resolver

variable {r : Resolver}

/-- A via-relation passes at least one table. -/
theorem via_ne_nil {start : Table} {v : Via} {path : Path} {legs : List Leg}
    (h : r.via start v path = .ok legs) : legs ≠ [] := by
  unfold via at h
  obtain ⟨hops, hhops, h⟩ := except_bind_ok.mp h
  have hlength : 2 ≤ hops.length := by
    unfold Via.hops at hhops
    simp only at hhops
    split at hhops
    · cases hhops
    · split at hhops
      · cases hhops
      · rename_i hlong
        cases hhops
        omega
  match hops, hlength with
  | first :: second :: rest, _ =>
    simp only at h
    split at h
    · cases h
    · unfold Resolver.legs at h
      split at h
      · cases h
      · obtain ⟨_, _, h⟩ := except_bind_ok.mp h
        obtain ⟨_, _, h⟩ := except_bind_ok.mp h
        split at h
        · cases h
        · obtain ⟨_, _, h⟩ := except_bind_ok.mp h
          cases h
          exact List.cons_ne_nil _ _

/-- The way to a field with a shape leads to a place; the place is embedded only if the field has no
via-relation and its shape no table. -/
theorem stepsTo_leads {table : Table} {field : Field} {steps : List Step}
    (h : r.stepsTo table field = .ok steps) :
    ∃ last, Step.Leads steps last ∧
      (last.kind = .embedded → field.directives.via = none ∧ r.shapeTable field = .ok none) := by
  rcases stepsTo_cases h with
    ⟨v, legs, _, hlegs, rfl⟩ | ⟨hvia, ⟨target, link, _, _, rfl⟩ | ⟨hfound, rfl⟩⟩
  · obtain ⟨last, hleads, hplace⟩ := Step.ofLegs_leads r.schema field.isList (via_ne_nil hlegs)
    exact ⟨last, hleads, fun hembedded => absurd hembedded hplace⟩
  · obtain ⟨last, hleads, hplace⟩ := Step.ofLink_leads r.schema _ link field.isList
    exact ⟨last, hleads, fun hembedded => absurd hembedded hplace⟩
  · refine ⟨_, ⟨[], rfl, List.forall_mem_nil _, ?_⟩, fun _ => ⟨hvia, hfound⟩⟩
    rintro (hjunction | hhop)
    · cases hjunction
    · cases hhop

theorem mem_project (columns : List ProjectedColumn) (column : ColumnId) (name : String) :
    ∀ c ∈ columns, c ∈ Relation.project columns column name := by
  unfold Relation.project
  split
  · exact fun c hc => hc
  · exact fun c hc => List.mem_append_left _ hc

theorem project_of_not_mem {columns : List ProjectedColumn} {name : String} (column : ColumnId)
    (h : name ∉ columns.map ProjectedColumn.name) :
    Relation.project columns column name = columns ++ [⟨column, name, false⟩] := by
  rw [Relation.project, if_neg]
  rw [List.any_eq_true]
  rintro ⟨c, hc, hname⟩
  exact h (List.mem_map.mpr ⟨c, hc, beq_iff_eq.mp hname⟩)

mutual

/-- A field that is resolved stands at the place, once that has the columns and the trees; and names that
other fields need stay free. -/
theorem resolveField_hosted (hs : r.schema.Sound) (hkeyed : r.schema.Keyed) :
    ∀ (t : FieldTree) {table : Table} {aliasName : String} {columns : List ProjectedColumn}
      {names : List String} {u u' : Supply} {result : List ProjectedColumn × List RelationTree},
      table ∈ r.schema.tables →
      (columns.map ProjectedColumn.name ++ (FieldTree.shownNames [t] ++ names)).Nodup →
      (t.label.directives.exclude = false → t.NamesApart) →
      (r.resolveField table aliasName columns t).run u = .ok (result, u') →
        (∀ c ∈ columns, c ∈ result.1) ∧
        (result.1.map ProjectedColumn.name ++ names).Nodup ∧
        ∀ (place : Relation) (trees : List RelationTree), place.table = table.id →
          (∀ c ∈ result.1, c ∈ place.columns) → (∀ t ∈ result.2, t ∈ trees) →
            Hosted r place trees t
  | .node field kids, table, aliasName, columns, names, u, u', result, htable, hfree, happart,
      hrun => by
    have hspare : (columns.map ProjectedColumn.name ++ names).Nodup := by
      refine hfree.sublist ((List.Sublist.refl _).append ?_)
      exact List.sublist_append_right _ _
    cases resolves_of_resolveField hrun with
    | excluded hexcluded =>
      exact ⟨fun c hc => hc, hspare, fun _ _ _ _ _ hshown =>
        absurd (hexcluded.symm.trans hshown) Bool.noConfusion⟩
    | @scalar column hshown hscalar hcolumn =>
      rw [FieldTree.shownNames_singleton (t := .node field kids) hshown] at hfree
      have hnew : field.name ∉ columns.map ProjectedColumn.name := by
        intro hmem
        exact (List.nodup_append.mp hfree).2.2 _ hmem _
          (List.mem_append_left _ (List.mem_singleton.mpr rfl)) rfl
      refine ⟨mem_project columns _ _, ?_, ?_⟩
      · rw [project_of_not_mem _ hnew, List.map_append, List.append_assoc]
        exact hfree
      · intro place trees hplace hcolumns _ _
        refine ⟨fun _ => ⟨column, ?_, ⟨column.id, field.name, false⟩, ?_, rfl, rfl⟩, ?_⟩
        · rw [hplace, hs.table_id htable]
          exact hcolumn
        · apply hcolumns
          rw [project_of_not_mem _ hnew]
          exact List.mem_append_right _ (List.mem_singleton.mpr rfl)
        · exact fun hnot => absurd (hscalar.symm.trans hnot) Bool.noConfusion
    | cyclic _ hshape hcyclic =>
      exact ⟨fun c hc => hc, hspare, fun _ _ _ _ _ _ =>
        ⟨fun his => absurd (hshape.symm.trans his) Bool.noConfusion, fun _ hnot =>
          absurd (hcyclic.symm.trans hnot) Bool.noConfusion⟩⟩
    | @places _ places _ _ own below hshown hshape _ hsteps hplaces hbelow =>
      have hapart : FieldTree.NamesApart (.node field kids) := happart hshown
      obtain ⟨last, hleads, hembedded⟩ := stepsTo_leads hsteps
      have hmem := (stepsTo_from hs hkeyed htable hsteps).mem_tables
      obtain ⟨passed, place, rfl, hpassed, hplace, hpath, hkind, hinner⟩ :=
        Resolving.setUp_leads hleads hplaces
      obtain ⟨before, rfl, _, _⟩ := hleads
      have htarget : last.table ∈ r.schema.tables :=
        hmem last (List.mem_append_right _ (List.mem_singleton.mpr rfl))
      rw [List.getLast?_concat, Option.map_some, Option.getD_some] at hbelow
      obtain ⟨_, _, hkids⟩ := resolveFields_hosted hs hkeyed kids htarget
        (by simpa using hapart.1) hapart.2 hbelow
      refine ⟨fun c hc => hc, hspare, ?_⟩
      intro outer trees _ _ htrees _
      refine ⟨fun his => absurd (hshape.symm.trans his) Bool.noConfusion, fun _ _ => ?_⟩
      obtain ⟨t, ht, hshows⟩ := nested_shows own below hpassed hplace
      refine ⟨{ place with columns := own }, below, ⟨t, htrees t ht, hshows⟩, hpath, ?_, ?_⟩
      · intro his
        apply hembedded
        rw [← hkind]
        unfold Relation.isEmbedded at his
        split at his
        · assumption
        · cases his
      · exact hkids _ below hinner (fun c hc => hc) fun t ht => ht

theorem resolveFields_hosted (hs : r.schema.Sound) (hkeyed : r.schema.Keyed) :
    ∀ (ts : List FieldTree) {table : Table} {aliasName : String} {columns : List ProjectedColumn}
      {u u' : Supply} {result : List ProjectedColumn × List RelationTree},
      table ∈ r.schema.tables →
      (columns.map ProjectedColumn.name ++ FieldTree.shownNames ts).Nodup →
      FieldTree.NamesApartAll ts →
      (r.resolveFields table aliasName columns ts).run u = .ok (result, u') →
        (∀ c ∈ columns, c ∈ result.1) ∧ (result.1.map ProjectedColumn.name).Nodup ∧
        ∀ (place : Relation) (trees : List RelationTree), place.table = table.id →
          (∀ c ∈ result.1, c ∈ place.columns) → (∀ t ∈ result.2, t ∈ trees) →
            HostedAll r place trees ts
  | [], table, aliasName, columns, u, u', result, _, hfree, _, hrun => by
    rw [resolveFields, run_pure_ok] at hrun
    obtain ⟨rfl, _⟩ := hrun
    rw [FieldTree.shownNames, List.append_nil] at hfree
    exact ⟨fun c hc => hc, hfree, fun _ _ _ _ _ => trivial⟩
  | t :: ts, table, aliasName, columns, u, u', result, htable, hfree, ⟨hfirst, hrest⟩, hrun => by
    simp only [resolveFields, run_bind_ok, run_pure_ok] at hrun
    obtain ⟨⟨middle, first⟩, between, hrunFirst, ⟨final, others⟩, after, hothers, rfl, rfl⟩ := hrun
    rw [FieldTree.shownNames_cons] at hfree
    obtain ⟨hkept, hmiddle, hhosted⟩ := resolveField_hosted hs hkeyed t htable hfree hfirst hrunFirst
    obtain ⟨hlater, hnames, hall⟩ := resolveFields_hosted hs hkeyed ts htable hmiddle hrest hothers
    refine ⟨fun c hc => hlater c (hkept c hc), hnames, ?_⟩
    intro place trees hplace hcolumns htrees
    exact ⟨hhosted place trees hplace (fun c hc => hcolumns c (hlater c hc))
        fun t ht => htrees t (List.mem_append_left _ ht),
      hall place trees hplace hcolumns fun t ht => htrees t (List.mem_append_right _ ht)⟩

end

/-- The fields of an output stand at the root of its relations. -/
theorem resolve_hosted (hs : r.schema.Sound) (hkeyed : r.schema.Keyed) {table : Table}
    (htable : table ∈ r.schema.tables) {output : FieldTree} (hnames : output.NamesApart)
    {relations : Relations} (h : r.resolve table output = .ok relations) :
    HostedAll r relations.root relations.tree.children output.children := by
  obtain ⟨columns, kids, supply, hrun, rfl⟩ := resolve_inv h
  obtain ⟨field, below⟩ := output
  obtain ⟨_, _, hhosted⟩ := resolveFields_hosted hs hkeyed below htable (by simpa using hnames.1)
    hnames.2 hrun
  have hkept := kept_anchorKeys r.schema (.node { (Relations.ofTable table).root with columns } kids)
  exact hostedAll_mono below hkept.1 hkept.2
    (hhosted _ kids rfl (fun c hc => hc) fun t ht => ht)

theorem resolve_root_path {table : Table} {output : FieldTree} {relations : Relations}
    (h : r.resolve table output = .ok relations) : relations.root.path = .root := by
  obtain ⟨columns, kids, supply, _, rfl⟩ := resolve_inv h
  exact (Relation.keptAs_anchorKey r.schema { (Relations.ofTable table).root with columns }).path

end Resolver

end Resolved

end ShapeSql
