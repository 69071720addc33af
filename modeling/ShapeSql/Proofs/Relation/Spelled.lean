import ShapeSql.Proofs.Relation.Hosted
import ShapeSql.Proofs.Relation.Visits

namespace ShapeSql

/-- The name is spelled like a step that it agrees with up to case. -/
def Spells (steps : List String) (name : String) : Prop :=
  ∀ step ∈ steps, sameName name step = true → name = step

instance (steps : List String) (name : String) : Decidable (Spells steps name) :=
  inferInstanceAs (Decidable (∀ step ∈ steps, sameName name step = true → name = step))

namespace FieldTree

mutual

/-- The fields shown below a field are spelled like the steps that they agree with up to case. -/
def SpelledLike (steps : List String) : FieldTree → Prop
  | .node _ kids => SpelledLikeAll steps kids

def SpelledLikeAll (steps : List String) : List FieldTree → Prop
  | [] => True
  | t :: ts =>
    (t.label.directives.exclude = false → Spells steps t.label.name ∧ SpelledLike steps t) ∧
      SpelledLikeAll steps ts

end

mutual

def decidableSpelledLike (steps : List String) : (t : FieldTree) → Decidable (t.SpelledLike steps)
  | .node _ kids => decidableSpelledLikeAll steps kids

def decidableSpelledLikeAll (steps : List String) :
    (ts : List FieldTree) → Decidable (SpelledLikeAll steps ts)
  | [] => inferInstanceAs (Decidable True)
  | t :: ts =>
    have := decidableSpelledLike steps t
    have := decidableSpelledLikeAll steps ts
    inferInstanceAs (Decidable ((_ → _ ∧ _) ∧ _))

end

instance (steps : List String) : DecidablePred (SpelledLike steps) := decidableSpelledLike steps

end FieldTree

/-- The names of the topmost places of trees. -/
def topNames (trees : List RelationTree) : List String := trees.map fun t => t.label.name

mutual

/-- Each place is one step below the place around it, and the steps from one place are different; a
junction or hop leads on to one place alone. -/
def Spelled (steps : List String) (above : Path) : RelationTree → Prop
  | .node r kids =>
    r.path = above.join r.name ∧ Spells steps r.name ∧
    (r.isTransparent = true → topNames kids = [r.name] ∧ SpelledAll steps above kids) ∧
    (r.isTransparent = false → (topNames kids).Nodup ∧ SpelledAll steps r.path kids)

def SpelledAll (steps : List String) (above : Path) : List RelationTree → Prop
  | [] => True
  | t :: ts => Spelled steps above t ∧ SpelledAll steps above ts

end

section Basic

variable {steps : List String} {above : Path}

theorem spelledAll_iff {ts : List RelationTree} :
    SpelledAll steps above ts ↔ ∀ t ∈ ts, Spelled steps above t := by
  induction ts with
  | nil => exact ⟨fun _ => List.forall_mem_nil _, fun _ => trivial⟩
  | cons t ts ih => rw [SpelledAll, List.forall_mem_cons, ih]

theorem spelledAll_append {xs ys : List RelationTree} :
    SpelledAll steps above (xs ++ ys) ↔ SpelledAll steps above xs ∧ SpelledAll steps above ys := by
  rw [spelledAll_iff, List.forall_mem_append, ← spelledAll_iff, ← spelledAll_iff]

theorem topNames_append (xs ys : List RelationTree) :
    topNames (xs ++ ys) = topNames xs ++ topNames ys := List.map_append

/-- Labels that agree in name, path and kind are spelled alike. -/
theorem Spelled.of_same {r q : Relation} {kids : List RelationTree} (hname : q.name = r.name)
    (hpath : q.path = r.path) (hkind : q.kind = r.kind) (h : Spelled steps above (.node r kids)) :
    Spelled steps above (.node q kids) := by
  rw [Spelled, hname, hpath, Relation.isTransparent_of_kind hkind]
  exact h

theorem Relation.same_anchorKey_name (s : Schema) (r : Relation) : (r.anchorKey s).name = r.name := by
  unfold Relation.anchorKey
  split
  · rfl
  · rfl

theorem topNames_mapAll (s : Schema) (ts : List RelationTree) :
    topNames (Tree.mapAll (Relation.anchorKey s) ts) = topNames ts := by
  induction ts with
  | nil => rfl
  | cons t ts ih =>
    obtain ⟨r, kids⟩ := t
    have hfirst : ((Tree.node r kids).map (Relation.anchorKey s)).label.name = r.name :=
      r.same_anchorKey_name s
    rw [Tree.mapAll, topNames, List.map_cons, hfirst]
    exact congrArg (List.cons r.name) ih

mutual

theorem spelled_anchorKeys (s : Schema) : ∀ (t : RelationTree) {above : Path},
    Spelled steps above t → Spelled steps above (t.map (Relation.anchorKey s))
  | .node r kids, above, ⟨hpath, hname, hthrough, hplace⟩ => by
    have hkept := r.keptAs_anchorKey s
    have hkind := Relation.isTransparent_of_kind hkept.kind
    rw [Tree.map, Spelled, hkept.path, r.same_anchorKey_name s, hkind, topNames_mapAll]
    exact ⟨hpath, hname,
      fun h => ⟨(hthrough h).1, spelledAll_anchorKeys s kids (hthrough h).2⟩,
      fun h => ⟨(hplace h).1, spelledAll_anchorKeys s kids (hplace h).2⟩⟩

theorem spelledAll_anchorKeys (s : Schema) : ∀ (ts : List RelationTree) {above : Path},
    SpelledAll steps above ts → SpelledAll steps above (Tree.mapAll (Relation.anchorKey s) ts)
  | [], _, _ => trivial
  | t :: ts, _, ⟨ht, hts⟩ => ⟨spelled_anchorKeys s t ht, spelledAll_anchorKeys s ts hts⟩

end

end Basic

section Find

variable {steps : List String}

mutual

/-- A tree shows the name of its topmost place. -/
theorem isSome_findShown {name : String} : ∀ (t : RelationTree) {above : Path},
    Spelled steps above t → (Relations.findShown name t).isSome = sameName t.label.name name
  | .node r kids, above, ⟨_, _, hthrough, _⟩ => by
    rw [Relations.findShown]
    by_cases htransparent : r.isTransparent = true
    · obtain ⟨hkids, hspelled⟩ := hthrough htransparent
      rw [if_pos htransparent, isSome_findChild kids hspelled, hkids, List.any_cons, List.any_nil,
        Bool.or_false]
      rfl
    · rw [if_neg htransparent]
      show Option.isSome _ = sameName r.name name
      cases sameName r.name name with
      | true => rfl
      | false => rfl

theorem isSome_findChild {name : String} : ∀ (ts : List RelationTree) {above : Path},
    SpelledAll steps above ts →
      (Relations.findChild name ts).isSome = (topNames ts).any fun other => sameName other name
  | [], _, _ => rfl
  | t :: ts, above, ⟨ht, hts⟩ => by
    have hrest : (Relations.findChild name ts).isSome =
      (topNames ts).any fun other => sameName other name := isSome_findChild ts hts
    rw [Relations.findChild, topNames, List.map_cons, List.any_cons, ← isSome_findShown t ht]
    cases Relations.findShown name t with
    | some found => rfl
    | none =>
      rw [Option.isSome_none, Bool.false_or]
      exact hrest

end

theorem Relations.findChild_append (name : String) (xs ys : List RelationTree) :
    findChild name (xs ++ ys) = (findChild name xs).or (findChild name ys) := by
  induction xs with
  | nil => rfl
  | cons t xs ih =>
    rw [List.cons_append, findChild, findChild]
    split
    · rfl
    · exact ih

variable {above : Path} {name : String}

/-- A step leads on from trees whose topmost places do not have its name to none of them. -/
theorem findChild_eq_none (hname : name ∈ steps) {ts : List RelationTree}
    (hts : SpelledAll steps above ts) (hnew : name ∉ topNames ts) :
    Relations.findChild name ts = none := by
  rw [← Option.isNone_iff_eq_none, ← Option.not_isSome, isSome_findChild ts hts, Bool.not_eq_true',
    List.any_eq_false]
  intro other hother hsame
  obtain ⟨t, ht, rfl⟩ := List.mem_map.mp hother
  obtain ⟨r, kids⟩ := t
  have hspells := (spelledAll_iff.mp hts _ ht).2.1
  exact hnew (hspells name hname hsame ▸ hother)

/-- A step leads on from trees to the one whose topmost place has its name. -/
theorem findChild_of_split (hname : name ∈ steps) {before after : List RelationTree}
    {t : RelationTree} (hbefore : SpelledAll steps above before) (hafter : SpelledAll steps above after)
    (hfirst : name ∉ topNames before) (hlast : name ∉ topNames after) :
    Relations.findChild name (before ++ t :: after) = Relations.findShown name t := by
  rw [Relations.findChild_append, findChild_eq_none hname hbefore hfirst, Option.none_or,
    Relations.findChild, findChild_eq_none hname hafter hlast]
  split
  · rename_i hfound
    exact hfound.symm
  · rename_i hnone
    exact hnone.symm

end Find

section Trail

/-- The places of a path, one below the other, with the junctions and hops between them. -/
inductive Trail : Path → List String → RelationTree → Prop where
  | through {above : Path} {step : String} {rest : List String} {r : Relation} {t : RelationTree} :
    r.isTransparent = true → r.name = step → r.path = above.join step →
      Trail above (step :: rest) t → Trail above (step :: rest) (.node r [t])
  | last {above : Path} {step : String} {r : Relation} :
    r.isTransparent = false → r.name = step → r.path = above.join step →
      Trail above [step] (.node r [])
  | place {above : Path} {step next : String} {rest : List String} {r : Relation} {t : RelationTree} :
    r.isTransparent = false → r.name = step → r.path = above.join step →
      Trail (above.join step) (next :: rest) t → Trail above (step :: next :: rest) (.node r [t])

variable {above : Path} {step : String} {names rest steps : List String} {t : RelationTree}

theorem Trail.name (h : Trail above (step :: rest) t) : t.label.name = step := by
  cases h with
  | through _ hname _ _ => exact hname
  | last _ hname _ => exact hname
  | place _ hname _ _ => exact hname

theorem Trail.spelled (h : Trail above names t) (hnames : ∀ name ∈ names, Spells steps name) :
    Spelled steps above t := by
  induction h with
  | through hthrough hname hpath htrail ih =>
    subst hname
    refine ⟨hpath, hnames _ List.mem_cons_self, fun _ => ⟨?_, ih hnames, trivial⟩, ?_⟩
    · rw [topNames, List.map_singleton, htrail.name]
    · exact fun hplace => absurd (hthrough.symm.trans hplace) Bool.noConfusion
  | last hplace hname hpath =>
    subst hname
    refine ⟨hpath, hnames _ List.mem_cons_self, ?_, fun _ => ⟨List.nodup_nil, trivial⟩⟩
    exact fun hthrough => absurd (hplace.symm.trans hthrough) Bool.noConfusion
  | place hplace hname hpath _ ih =>
    subst hname
    refine ⟨hpath, hnames _ List.mem_cons_self, ?_, fun _ => ⟨List.nodup_singleton _, ?_, trivial⟩⟩
    · exact fun hthrough => absurd (hplace.symm.trans hthrough) Bool.noConfusion
    · rw [hpath]
      exact ih fun name hname => hnames name (List.mem_cons_of_mem _ hname)

theorem Trail.anchorKeys (h : Trail above names t) (s : Schema) :
    Trail above names (t.map (Relation.anchorKey s)) := by
  have hkept : ∀ r : Relation, (r.anchorKey s).isTransparent = r.isTransparent ∧
      (r.anchorKey s).name = r.name ∧ (r.anchorKey s).path = r.path := fun r =>
    ⟨Relation.isTransparent_of_kind (r.keptAs_anchorKey s).kind, r.same_anchorKey_name s,
      (r.keptAs_anchorKey s).path⟩
  induction h with
  | @through _ _ _ r _ hthrough hname hpath _ ih =>
    obtain ⟨htransparent, hsame, hplace⟩ := hkept r
    exact .through (htransparent.trans hthrough) (hsame.trans hname) (hplace.trans hpath) ih
  | @last _ _ r hplaced hname hpath =>
    obtain ⟨htransparent, hsame, hplace⟩ := hkept r
    exact .last (htransparent.trans hplaced) (hsame.trans hname) (hplace.trans hpath)
  | @place _ _ _ _ r _ hplaced hname hpath _ ih =>
    obtain ⟨htransparent, hsame, hplace⟩ := hkept r
    exact .place (htransparent.trans hplaced) (hsame.trans hname) (hplace.trans hpath) ih

theorem Supply.name_relation (u : Supply) (table : TableId) (name : String) (path : Path)
    (join : List JoinPair) (kind : RelationKind) (desired : Option String) (parentAlias : String) :
    (u.relation table name path join kind desired parentAlias).1.name = name := by
  unfold Supply.relation
  split
  · rfl
  · rfl

/-- Copies are spelled like what they are copied from. -/
theorem Trail.copyTree (h : Trail above names t) :
    ∀ (parentAlias : String) (u : Supply), Trail above names (Relations.copyTree parentAlias t u).1 := by
  have hcopied : ∀ (r : Relation) (parentAlias : String) (u : Supply) (desired : Option String)
      (columns : List ProjectedColumn), let copy : Relation :=
        { (u.relation r.table r.name r.path r.join r.kind desired parentAlias).1 with columns }
      copy.isTransparent = r.isTransparent ∧ copy.name = r.name ∧ copy.path = r.path := by
    intro r parentAlias u desired columns
    have hpath := u.path_relation r.table r.name r.path r.join r.kind desired parentAlias
    exact ⟨Relation.isTransparent_of_kind hpath.2.1, u.name_relation .., hpath.1⟩
  induction h with
  | @through _ _ _ r _ hthrough hname hpath _ ih =>
    intro parentAlias u
    obtain ⟨htransparent, hsame, hplace⟩ := hcopied r parentAlias u
      (if r.isEmbedded then none else some r.aliasName) r.columns
    simp only [Relations.copyTree, Relations.copyTrees]
    exact .through (htransparent.trans hthrough) (hsame.trans hname) (hplace.trans hpath) (ih _ _)
  | @last _ _ r hplaced hname hpath =>
    intro parentAlias u
    obtain ⟨htransparent, hsame, hplace⟩ := hcopied r parentAlias u
      (if r.isEmbedded then none else some r.aliasName) r.columns
    simp only [Relations.copyTree, Relations.copyTrees]
    exact .last (htransparent.trans hplaced) (hsame.trans hname) (hplace.trans hpath)
  | @place _ _ _ _ r _ hplaced hname hpath _ ih =>
    intro parentAlias u
    obtain ⟨htransparent, hsame, hplace⟩ := hcopied r parentAlias u
      (if r.isEmbedded then none else some r.aliasName) r.columns
    simp only [Relations.copyTree, Relations.copyTrees]
    exact .place (htransparent.trans hplaced) (hsame.trans hname) (hplace.trans hpath) (ih _ _)

end Trail

section Merge

namespace Relations

theorem findSteps_cons (q : Relation) (own : List RelationTree) (step : String) (rest : List String) :
    findSteps (.node q own) (step :: rest) = (findChild step own).bind fun t => findSteps t rest := by
  rw [findSteps, Tree.children]
  cases findChild step own with
  | none => rfl
  | some child => rfl

/-- One tree is copied beside those that are there, or merged with one of them, or refused. -/
theorem mergeTrees_cases (parentAlias : String) (own : List RelationTree) (t : RelationTree)
    (u : Supply) :
    (mergeTrees parentAlias own [t] u).value = own ++ [(copyTree parentAlias t u).1] ∨
    (mergeTrees parentAlias own [t] u).value = own ∨
    ∃ before c after join, own = before ++ c :: after ∧ matching c.label t.label = true ∧
      (mergeTrees parentAlias own [t] u).value = before ++
        (mergeTree (.node { c.label with join } c.children) t u).value :: after := by
  rcases mergeTrees_cons parentAlias own t [] u with ⟨_, h⟩ |
    ⟨before, label, children, behind, rfl, hmatching, ⟨_, h⟩ | ⟨join, _, ⟨_, _, h⟩ | ⟨_, h⟩⟩⟩
  · exact Or.inl (by rw [h, mergeTrees])
  · exact Or.inr (Or.inl (by rw [h]))
  · exact Or.inr (Or.inr ⟨before, .node label children, behind, join, rfl, hmatching, by rw [h]; rfl⟩)
  · exact Or.inr (Or.inr ⟨before, .node label children, behind, join, rfl, hmatching,
      by rw [h, mergeTrees]; rfl⟩)

theorem name_mergeTree (own t : RelationTree) (u : Supply) :
    (mergeTree own t u).value.label.name = own.label.name := by
  obtain ⟨r, kids⟩ := t
  rw [mergeTree]
  rfl

/-- A merge unites the columns of a place and merges what is below it. -/
theorem mergeTree_node (c : RelationTree) (join : List JoinPair) (r : Relation)
    (others : List RelationTree) (u : Supply) :
    ∃ united : Relation,
      (mergeTree (.node { c.label with join } c.children) (.node r others) u).value =
        .node united (mergeTrees c.label.aliasName c.children others u).value ∧
      united.name = c.label.name ∧ united.path = c.label.path ∧ united.kind = c.label.kind := by
  rw [mergeTree]
  exact ⟨_, rfl, rfl, rfl, rfl⟩

variable {steps : List String} {above : Path}

/-- The topmost places are those that were there, or there is one more, of a new name. -/
def Grown (name : String) (before after : List RelationTree) : Prop :=
  topNames after = topNames before ∨
    name ∉ topNames before ∧ topNames after = topNames before ++ [name]

theorem Grown.nodup {name : String} {before after : List RelationTree} (h : Grown name before after)
    (hdistinct : (topNames before).Nodup) : (topNames after).Nodup := by
  rcases h with hkept | ⟨hnew, hadded⟩
  · rw [hkept]
    exact hdistinct
  · rw [hadded, ← List.concat_eq_append]
    exact hdistinct.concat hnew

/-- A merge that lets a path lead on adds its first place beside the others, or merges it with the one
of its name, from which the path goes on. -/
theorem mergeTrees_leads {step : String} {rest : List String} {t : RelationTree}
    (htrail : Trail above (step :: rest) t) (hsteps : ∀ name ∈ steps, Spells steps name)
    (hknown : ∀ name ∈ step :: rest, name ∈ steps) {own : List RelationTree} {q q' : Relation}
    (parentAlias : String) (u : Supply) (hown : SpelledAll steps above own)
    (hdistinct : (topNames own).Nodup)
    (hmatched : ∀ (c : RelationTree) (join : List JoinPair), Spelled steps above c →
      c.label.name = step → c.label.kind = t.label.kind →
      ((findShown step c).bind fun t => findSteps t rest) = none →
      ((findShown step (mergeTree (.node { c.label with join } c.children) t u).value).bind
        fun t => findSteps t rest).isSome = true →
      Spelled steps above (mergeTree (.node { c.label with join } c.children) t u).value)
    (hbefore : findSteps (.node q own) (step :: rest) = none)
    (hafter : (findSteps (.node q' (mergeTrees parentAlias own [t] u).value)
      (step :: rest)).isSome = true) :
    SpelledAll steps above (mergeTrees parentAlias own [t] u).value ∧
      Grown step own (mergeTrees parentAlias own [t] u).value := by
  have hstep : step ∈ steps := hknown step List.mem_cons_self
  rw [findSteps_cons] at hbefore hafter
  rcases mergeTrees_cases parentAlias own t u with hcopied | hrefused | hmerged
  · have hcopy := htrail.copyTree parentAlias u
    have hspelled := hcopy.spelled fun name hname => hsteps name (hknown name hname)
    have hnew : findChild step own = none := by
      cases hfound : findChild step own with
      | none => rfl
      | some found =>
        rw [hcopied, findChild_append, hfound, Option.some_or, ← hfound, hbefore] at hafter
        cases hafter
    rw [hcopied, spelledAll_append, Grown, topNames_append]
    refine ⟨⟨hown, hspelled, trivial⟩, Or.inr ⟨fun hmem => ?_, ?_⟩⟩
    · have hany : (topNames own).any (fun other => sameName other step) = true :=
        List.any_eq_true.mpr ⟨step, hmem, sameName_self step⟩
      rw [← isSome_findChild own hown, hnew] at hany
      cases hany
    · rw [topNames, topNames, List.map_singleton, hcopy.name]
  · rw [hrefused, hbefore] at hafter
    cases hafter
  · obtain ⟨before, c, after, join, rfl, hmatching, hvalue⟩ := hmerged
    obtain ⟨hfirst, hc, hlast⟩ := spelledAll_append.mp hown
    obtain ⟨_, hkind, hsame⟩ := matching_iff.mp hmatching
    have hname : c.label.name = step := by
      rw [htrail.name] at hsame
      obtain ⟨r, kids⟩ := c
      exact hc.2.1 step hstep hsame
    have hothers : step ∉ topNames before ∧ step ∉ topNames after := by
      have hnames : topNames (before ++ c :: after) = topNames before ++ step :: topNames after := by
        rw [topNames_append, ← hname]
        rfl
      rw [hnames, List.nodup_middle, List.nodup_cons, List.mem_append, not_or] at hdistinct
      exact hdistinct.1
    rw [findChild_of_split hstep hfirst hlast hothers.1 hothers.2] at hbefore
    rw [hvalue, findChild_of_split hstep hfirst hlast hothers.1 hothers.2] at hafter
    have hgrown := hmatched c join hc hname hkind hbefore hafter
    rw [hvalue]
    refine ⟨spelledAll_append.mpr ⟨hfirst, hgrown, hlast⟩, Or.inl ?_⟩
    rw [topNames_append, topNames_append]
    exact congrArg (fun name => topNames before ++ name :: topNames after) (name_mergeTree _ t u)

/-- Places along a path that the relations do not lead yet are added below the place where they end. -/
theorem mergeTrees_spelled (hsteps : ∀ name ∈ steps, Spells steps name) {names : List String}
    {t : RelationTree} (htrail : Trail above names t) :
    (∀ name ∈ names, name ∈ steps) →
    ∀ {own : List RelationTree} {q q' : Relation} (parentAlias : String) (u : Supply),
      SpelledAll steps above own → (topNames own).Nodup →
      findSteps (.node q own) names = none →
      (findSteps (.node q' (mergeTrees parentAlias own [t] u).value) names).isSome = true →
        SpelledAll steps above (mergeTrees parentAlias own [t] u).value ∧
          Grown t.label.name own (mergeTrees parentAlias own [t] u).value := by
  induction htrail with
  | @through above step rest r t hthrough hname hpath htrail ih =>
    intro hknown own q q' parentAlias u hown hdistinct
    rw [show (Tree.node r [t]).label.name = step from hname]
    refine mergeTrees_leads (.through hthrough hname hpath htrail) hsteps hknown parentAlias u hown
      hdistinct ?_
    rintro ⟨label, kids⟩ join ⟨hplaced, hspells, htransparent, _⟩ hsame hkind hbefore hafter
    have hpassed : label.isTransparent = true := (Relation.isTransparent_of_kind hkind).trans hthrough
    obtain ⟨honly, hkids⟩ := htransparent hpassed
    obtain ⟨united, hvalue, hunited⟩ := mergeTree_node (.node label kids) join r [t] u
    rw [hvalue] at hafter ⊢
    rw [findShown, if_pos hpassed, ← findSteps_cons default] at hbefore
    rw [findShown, if_pos ((Relation.isTransparent_of_kind hunited.2.2).trans hpassed),
      ← findSteps_cons default] at hafter
    obtain ⟨hgrown, hnames⟩ := ih hknown _ _ hkids (honly ▸ List.nodup_singleton _) hbefore hafter
    have hkept : topNames (mergeTrees label.aliasName kids [t] u).value = [label.name] := by
      rcases hnames with hkept | ⟨hnew, _⟩
      · exact hkept.trans honly
      · rw [honly, htrail.name] at hnew
        exact absurd (List.mem_singleton.mpr hsame.symm) hnew
    exact Spelled.of_same hunited.1 hunited.2.1 hunited.2.2 ⟨hplaced, hspells,
      fun _ => ⟨hkept, hgrown⟩, fun hplace => absurd (hpassed.symm.trans hplace) Bool.noConfusion⟩
  | @last above step r hplace hname hpath =>
    intro hknown own q q' parentAlias u hown hdistinct
    rw [show (Tree.node r []).label.name = step from hname]
    refine mergeTrees_leads (.last hplace hname hpath) hsteps hknown parentAlias u hown hdistinct ?_
    rintro ⟨label, kids⟩ join _ hsame hkind hbefore _
    have hstands : label.isTransparent = false := (Relation.isTransparent_of_kind hkind).trans hplace
    have hsame : label.name = step := hsame
    rw [findShown, if_neg (Bool.eq_false_iff.mp hstands), hsame, sameName_self, if_pos rfl] at hbefore
    cases hbefore
  | @place above step next rest r t hplace hname hpath htrail ih =>
    intro hknown own q q' parentAlias u hown hdistinct
    rw [show (Tree.node r [t]).label.name = step from hname]
    refine mergeTrees_leads (.place hplace hname hpath htrail) hsteps hknown parentAlias u hown
      hdistinct ?_
    rintro ⟨label, kids⟩ join ⟨hplaced, hspells, _, hbelow⟩ hsame hkind hbefore hafter
    have hstands : label.isTransparent = false := (Relation.isTransparent_of_kind hkind).trans hplace
    have hsame : label.name = step := hsame
    obtain ⟨hdistinct, hkids⟩ := hbelow hstands
    have hthere : label.path = above.join step := hplaced.trans (congrArg above.join hsame)
    obtain ⟨united, hvalue, hunited⟩ := mergeTree_node (.node label kids) join r [t] u
    have hunitedStands : united.isTransparent = false :=
      (Relation.isTransparent_of_kind hunited.2.2).trans hstands
    rw [hvalue] at hafter ⊢
    rw [findShown, if_neg (Bool.eq_false_iff.mp hstands), hsame, sameName_self, if_pos rfl,
      Option.bind_some] at hbefore
    rw [findShown, if_neg (Bool.eq_false_iff.mp hunitedStands), hunited.1.trans hsame,
      sameName_self, if_pos rfl, Option.bind_some] at hafter
    obtain ⟨hgrown, hnames⟩ := ih (fun name hmem => hknown name (List.mem_cons_of_mem _ hmem)) _ _
      (hthere ▸ hkids) hdistinct hbefore hafter
    exact Spelled.of_same hunited.1 hunited.2.1 hunited.2.2 ⟨hplaced, hspells,
      fun hpassed => absurd (hstands.symm.trans hpassed) Bool.noConfusion,
      fun _ => ⟨hnames.nodup hdistinct, hthere ▸ hgrown⟩⟩

end Relations

end Merge

section Resolve

variable {steps : List String} {above : Path} {name : String}

theorem Resolving.setUp_names {path : Path} {parentAlias : String} {route : List Step}
    {u u' : Supply} {places : List Relation}
    (hrun : (setUp name path parentAlias route).run u = .ok (places, u')) :
    ∀ r ∈ places, r.name = name := by
  induction route generalizing parentAlias u places with
  | nil =>
    rw [setUp, run_pure_ok] at hrun
    rw [← hrun.1]
    exact List.forall_mem_nil _
  | cons step rest ih =>
    simp only [setUp, run_bind_ok, run_pure_ok, run_modifyGet_ok] at hrun
    obtain ⟨relation, between, hrelation, others, after, hothers, rfl, rfl⟩ := hrun
    have hnamed := u.name_relation step.table.id name path step.join step.kind
      (step.desiredAlias path) parentAlias
    rw [hrelation] at hnamed
    exact List.forall_mem_cons.mpr ⟨hnamed, ih hothers⟩

theorem nested_cons (columns : List ProjectedColumn) (kids : List RelationTree) (q : Relation)
    {rest : List Relation} (hrest : rest ≠ []) :
    nested columns kids (q :: rest) = [.node q (nested columns kids rest)] := by
  cases rest with
  | nil => exact absurd rfl hrest
  | cons second others => rfl

/-- What a way passes on to a place is spelled like the place. -/
theorem nested_spelled {columns : List ProjectedColumn} {kids : List RelationTree}
    {passed : List Relation} {place : Relation} (hpassed : ∀ q ∈ passed, q.isTransparent = true)
    (hsame : ∀ q ∈ passed, q.name = name ∧ q.path = above.join name) (hname : place.name = name)
    (hplace : Spelled steps above (.node { place with columns } kids)) :
    ∃ t, nested columns kids (passed ++ [place]) = [t] ∧ t.label.name = name ∧
      Spelled steps above t := by
  induction passed with
  | nil => exact ⟨_, rfl, hname, hplace⟩
  | cons q rest ih =>
    rw [List.forall_mem_cons] at hpassed hsame
    obtain ⟨t, hnested, htop, hspelled⟩ := ih hpassed.2 hsame.2
    refine ⟨.node q [t], ?_, hsame.1.1, ?_⟩
    · rw [List.cons_append, nested_cons columns kids q (List.append_ne_nil_of_right_ne_nil _
        (List.cons_ne_nil _ _)), hnested]
    · have hspells : Spells steps name := hname ▸ hplace.2.1
      refine ⟨hsame.1.1 ▸ hsame.1.2, hsame.1.1 ▸ hspells, fun _ => ⟨?_, hspelled, trivial⟩, ?_⟩
      · rw [topNames, List.map_singleton, htop, hsame.1.1]
      · exact fun hnot => absurd (hpassed.1.symm.trans hnot) Bool.noConfusion

theorem nested_trail {columns : List ProjectedColumn} {kids : List RelationTree}
    {passed : List Relation} {place : Relation} {rest : List String}
    (hpassed : ∀ q ∈ passed, q.isTransparent = true)
    (hsame : ∀ q ∈ passed, q.name = name ∧ q.path = above.join name)
    (hplace : Trail above (name :: rest) (.node { place with columns } kids)) :
    ∃ t, nested columns kids (passed ++ [place]) = [t] ∧ Trail above (name :: rest) t := by
  induction passed with
  | nil => exact ⟨_, rfl, hplace⟩
  | cons q others ih =>
    rw [List.forall_mem_cons] at hpassed hsame
    obtain ⟨t, hnested, htrail⟩ := ih hpassed.2 hsame.2
    refine ⟨.node q [t], ?_, .through hpassed.1 hsame.1.1 hsame.1.2 htrail⟩
    rw [List.cons_append, nested_cons columns kids q (List.append_ne_nil_of_right_ne_nil _
      (List.cons_ne_nil _ _)), hnested]

namespace Resolver

variable {r : Resolver}

mutual

/-- The place of a field is spelled like the field. -/
theorem resolveField_spelled : ∀ (t : FieldTree) {table : Table} {aliasName : String}
    {columns : List ProjectedColumn} {u u' : Supply}
    {result : List ProjectedColumn × List RelationTree} {above : Path},
    t.Rooted (above.join t.label.name) →
    (t.label.directives.exclude = false → t.NamesApart) →
    (t.label.directives.exclude = false → Spells steps t.label.name ∧ t.SpelledLike steps) →
    (r.resolveField table aliasName columns t).run u = .ok (result, u') →
      SpelledAll steps above result.2 ∧ (topNames result.2).Sublist (FieldTree.shownNames [t])
  | .node field kids, table, aliasName, columns, u, u', result, above, ⟨hpath, hkids⟩, hapart, hlike,
      hrun => by
    cases resolves_of_resolveField hrun with
    | excluded | scalar | cyclic => exact ⟨trivial, List.nil_sublist _⟩
    | @places _ _ _ _ own below hshown _ _ hsteps hplaces hbelow =>
      obtain ⟨hdistinct, happartBelow⟩ := hapart hshown
      obtain ⟨hspells, hlikeBelow⟩ := hlike hshown
      obtain ⟨hspelled, hnames⟩ := resolveFields_spelled kids hkids happartBelow hlikeBelow hbelow
      obtain ⟨last, hleads, _⟩ := stepsTo_leads hsteps
      have hnamed := Resolving.setUp_names hplaces
      have hplaced := Resolving.setUp_paths hplaces
      obtain ⟨passed, place, rfl, hpassed, hplace, _⟩ := Resolving.setUp_leads hleads hplaces
      rw [List.forall_mem_append, List.forall_mem_singleton] at hnamed hplaced
      have hthere : ∀ q ∈ passed, q.name = field.name ∧ q.path = above.join field.name :=
        fun q hq => ⟨hnamed.1 q hq, (hplaced.1 q hq).1.trans hpath⟩
      have hstands : place.path = above.join field.name := hplaced.2.1.trans hpath
      have hlast : Spelled steps above (.node { place with columns := own } below) := by
        refine ⟨?_, ?_, fun hnot => absurd (hplace.symm.trans hnot) Bool.noConfusion,
          fun _ => ⟨hdistinct.sublist hnames, ?_⟩⟩
        · show place.path = above.join place.name
          rw [hnamed.2, hstands]
        · show Spells steps place.name
          rw [hnamed.2]
          exact hspells
        · show SpelledAll steps place.path below
          rw [hstands]
          exact hspelled
      obtain ⟨t, hnested, htop, ht⟩ := nested_spelled hpassed hthere hnamed.2 hlast
      simp only
      rw [hnested, FieldTree.shownNames_singleton (t := .node field kids) hshown, topNames,
        List.map_singleton, htop]
      exact ⟨⟨ht, trivial⟩, List.Sublist.refl _⟩

theorem resolveFields_spelled : ∀ (ts : List FieldTree) {table : Table} {aliasName : String}
    {columns : List ProjectedColumn} {u u' : Supply}
    {result : List ProjectedColumn × List RelationTree} {above : Path},
    FieldTree.RootedAll above ts → FieldTree.NamesApartAll ts → FieldTree.SpelledLikeAll steps ts →
    (r.resolveFields table aliasName columns ts).run u = .ok (result, u') →
      SpelledAll steps above result.2 ∧ (topNames result.2).Sublist (FieldTree.shownNames ts)
  | [], table, aliasName, columns, u, u', result, above, _, _, _, hrun => by
    rw [resolveFields, run_pure_ok] at hrun
    rw [← hrun.1]
    exact ⟨trivial, List.nil_sublist _⟩
  | t :: ts, table, aliasName, columns, u, u', result, above, ⟨hfirst, hrest⟩, ⟨hapart, haparts⟩,
      ⟨hlike, hlikes⟩, hrun => by
    simp only [resolveFields, run_bind_ok, run_pure_ok] at hrun
    obtain ⟨⟨_, first⟩, between, hrunFirst, ⟨_, others⟩, after, hothers, rfl, rfl⟩ := hrun
    obtain ⟨hspelled, hnames⟩ := resolveField_spelled t hfirst hapart hlike hrunFirst
    obtain ⟨hspelledRest, hnamesRest⟩ := resolveFields_spelled ts hrest haparts hlikes hothers
    refine ⟨spelledAll_append.mpr ⟨hspelled, hspelledRest⟩, ?_⟩
    rw [FieldTree.shownNames_cons]
    show (topNames (first ++ others)).Sublist _
    rw [topNames_append]
    exact hnames.append hnamesRest

end

/-- The relations along a path are places one below the other. -/
theorem resolveSteps_trail {names : List String} {table : Table} {aliasName : String} {walked : Path}
    {u u' : Supply} {trees : List RelationTree}
    (hrun : (r.resolveSteps table aliasName walked names).run u = .ok (trees, u')) :
    names = [] ∧ trees = [] ∨ ∃ t, trees = [t] ∧ Trail walked names t := by
  induction names generalizing table aliasName walked u trees with
  | nil =>
    rw [resolveSteps, run_pure_ok] at hrun
    exact Or.inl ⟨rfl, hrun.1.symm⟩
  | cons step rest ih =>
    obtain ⟨_, link, places, between, below, _, _, hplaces, hbelow, rfl⟩ := resolveSteps_cons hrun
    obtain ⟨last, hleads, _⟩ := Step.ofLink_leads r.schema _ link false
    have hnamed := Resolving.setUp_names hplaces
    have hplaced := Resolving.setUp_paths hplaces
    obtain ⟨passed, place, rfl, hpassed, hplace, _⟩ := Resolving.setUp_leads hleads hplaces
    rw [List.forall_mem_append, List.forall_mem_singleton] at hnamed hplaced
    have hthere : ∀ q ∈ passed, q.name = step ∧ q.path = walked.join step :=
      fun q hq => ⟨hnamed.1 q hq, (hplaced.1 q hq).1⟩
    refine Or.inr (nested_trail hpassed hthere ?_)
    rcases ih hbelow with ⟨rfl, rfl⟩ | ⟨t, rfl, htrail⟩
    · exact .last hplace hnamed.2 hplaced.2.1
    · cases rest with
      | nil => cases htrail
      | cons next rest => exact .place hplace hnamed.2 hplaced.2.1 htrail

end Resolver

end Resolve

namespace Relations

variable {steps : List String}

/-- Below the root, which has no name, places are told apart by their names. -/
structure SpelledOut (steps : List String) (relations : Relations) : Prop where
  path : relations.root.path = .root
  distinct : (topNames relations.tree.children).Nodup
  below : SpelledAll steps .root relations.tree.children

theorem SpelledOut.anchorKeys {relations : Relations} (h : relations.SpelledOut steps) (s : Schema) :
    (relations.anchorKeys s).SpelledOut steps := by
  obtain ⟨⟨⟨root, kids⟩, supply⟩, hpath, hdistinct, hplaces⟩ := relations, h
  refine ⟨(root.keptAs_anchorKey s).path.trans hpath, ?_, spelledAll_anchorKeys s kids hplaces⟩
  show (topNames (Tree.mapAll (Relation.anchorKey s) kids)).Nodup
  rw [topNames_mapAll]
  exact hdistinct

/-- Joining along a path that did not lead to a relation before keeps places apart. -/
theorem SpelledOut.merged {r : Resolver} {table : Table} {path : Path} {own extra after : Relations}
    (h : own.SpelledOut steps) (hsteps : ∀ name ∈ steps, Spells steps name)
    (hpath : ∀ name ∈ path.steps, name ∈ steps) (hextra : r.resolvePath table path = .ok extra)
    (hmerged : own.merged extra = .ok after) (hbefore : own.find? path = none)
    (hafter : (after.find? path).isSome = true) : after.SpelledOut steps := by
  obtain ⟨trees, supply, hrun, rfl⟩ := Resolver.resolvePath_inv hextra
  have hvalue := congrArg tree (merged_inv hmerged).2.2
  obtain ⟨⟨⟨root, kids⟩, u⟩, hroot, hdistinct, hplaces⟩ := own, h
  rw [find?, Option.map_eq_none_iff] at hbefore
  rw [find?, Option.isSome_map] at hafter
  rcases Resolver.resolveSteps_trail hrun with ⟨hnone, _⟩ | ⟨t, rfl, htrail⟩
  · rw [hnone] at hbefore
    cases hbefore
  · obtain ⟨united, hnode, _, hstays, _⟩ := mergeTree_node (.node root kids) root.join
      ((Relations.ofTable table).root.anchorKey r.schema) [t.map (Relation.anchorKey r.schema)] u
    have htree : after.tree = .node united
        (mergeTrees root.aliasName kids [t.map (Relation.anchorKey r.schema)] u).value :=
      hvalue.trans hnode
    rw [htree] at hafter
    obtain ⟨hspelled, hnames⟩ := mergeTrees_spelled hsteps (htrail.anchorKeys r.schema) hpath
      root.aliasName u hplaces hdistinct hbefore hafter
    refine ⟨?_, ?_, ?_⟩
    · rw [Relations.root, htree]
      exact hstays.trans hroot
    · rw [htree]
      exact hnames.nodup hdistinct
    · rw [htree]
      exact hspelled

end Relations

/-- The places of an output are told apart by their names, if its fields are. -/
theorem Resolver.resolve_spelledOut {r : Resolver} {table : Table} {output : FieldTree}
    {steps : List String} {relations : Relations} (hrooted : output.Rooted .root)
    (hnames : output.NamesApart) (hlike : output.SpelledLike steps)
    (h : r.resolve table output = .ok relations) : relations.SpelledOut steps := by
  obtain ⟨columns, kids, supply, hrun, rfl⟩ := resolve_inv h
  obtain ⟨field, below⟩ := output
  obtain ⟨hspelled, htop⟩ := resolveFields_spelled below hrooted.2 hnames.2 hlike hrun
  have hplaced : Relations.SpelledOut steps
      ⟨.node { (Relations.ofTable table).root with columns } kids, supply⟩ :=
    ⟨rfl, hnames.1.sublist htop, hspelled⟩
  exact hplaced.anchorKeys r.schema

end ShapeSql
