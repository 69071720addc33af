import ShapeSql.Proofs.Relation.Resolve
import ShapeSql.Proofs.Relation.Resolver
import ShapeSql.Proofs.Schema.Keys

namespace ShapeSql

variable {s : Schema}

/-- Each pair equates a column of `parent` with one of `child`. -/
def PairsBetween (parent child : Table) (pairs : List JoinPair) : Prop :=
  ∀ pair ∈ pairs, parent.Owns pair.parent ∧ child.Owns pair.child

theorem pairsBetween_nil (parent child : Table) : PairsBetween parent child [] := nofun

namespace Link

/-- The pairs of each step of a link lie between the tables of the step. -/
def Between (s : Schema) (parent child : Table) : Link → Prop
  | .parentHolds pairs | .childHolds pairs => PairsBetween parent child pairs
  | .junction table toParent toChild =>
    PairsBetween parent (s.table table) toParent ∧ PairsBetween (s.table table) child toChild

/-- A key seen from the table that declares it. -/
theorem forward_between (hs : s.Sound) (hkeyed : s.Keyed) {t target : Table} (ht : t ∈ s.tables)
    (htarget : target ∈ s.tables) {key : ForeignKey} (hkey : key ∈ t.keysTo target.id) :
    PairsBetween t target key.forward := by
  obtain ⟨hmem, hto⟩ := List.mem_filter.mp hkey
  obtain ⟨found, hfound, hid, hpairs⟩ := hkeyed.pairs t ht key hmem
  have hsame : found = target := hs.eq_of_id hfound htarget (hid.trans (by simpa using hto))
  rw [hsame] at hpairs
  intro pair hpair
  obtain ⟨declared, hdeclared, rfl⟩ := List.mem_map.mp hpair
  exact hpairs declared hdeclared

/-- A key seen from the table that is referenced. -/
theorem backward_between (hs : s.Sound) (hkeyed : s.Keyed) {t target : Table} (ht : t ∈ s.tables)
    (htarget : target ∈ s.tables) {key : ForeignKey} (hkey : key ∈ t.keysTo target.id) :
    PairsBetween target t key.backward := by
  have hforward := forward_between hs hkeyed ht htarget hkey
  intro pair hpair
  obtain ⟨declared, hdeclared, rfl⟩ := List.mem_map.mp hpair
  obtain ⟨hforeign, hprimary⟩ := hforward _ (List.mem_map.mpr ⟨declared, hdeclared, rfl⟩)
  exact ⟨hprimary, hforeign⟩

theorem junctionKeys_between {parent child table : Table} {keys : ForeignKey × ForeignKey}
    (h : junctionKeys parent child table = some keys) :
    keys.1 ∈ table.keysTo parent.id ∧ keys.2 ∈ table.keysTo child.id := by
  unfold junctionKeys at h
  split at h
  · cases h
  · split at h
    · rename_i hself
      split at h
      · rename_i toParent toChild hkeys
        cases h
        rw [← hself, hkeys]
        simp
      · cases h
    · split at h
      · rename_i toParent toChild hparent hchild
        cases h
        rw [hparent, hchild]
        simp
      · cases h

theorem candidate_between (hs : s.Sound) (hkeyed : s.Keyed) {parent child : Table}
    (hparent : parent ∈ s.tables) (hchild : child ∈ s.tables) {c : Candidate}
    (hc : c ∈ candidates s parent child) : c.link.Between s parent child := by
  obtain ⟨table, htable, hkeys⟩ := List.mem_filterMap.mp hc
  obtain ⟨keys, hpair, rfl⟩ := Option.map_eq_some_iff.mp hkeys
  obtain ⟨hto, hfrom⟩ := junctionKeys_between hpair
  rw [Candidate.link, Between, hs.table_id htable]
  exact ⟨backward_between hs hkeyed htable hparent hto,
    forward_between hs hkeyed htable hchild hfrom⟩

/-- The link that is inferred between two tables of the schema lies between them. -/
theorem infer_between (hs : s.Sound) (hkeyed : s.Keyed) {parent child : Table}
    (hparent : parent ∈ s.tables) (hchild : child ∈ s.tables) {field : String} {many : Bool}
    {policy : JunctionPolicy} {link : Link}
    (hlink : infer s parent child field many policy = .ok (some link)) :
    link.Between s parent child := by
  rcases infer_cases hlink with ⟨key, hkey, rfl⟩ | ⟨key, hkey, rfl⟩ | ⟨c, hc, rfl⟩
  · exact forward_between hs hkeyed hparent hchild hkey
  · exact backward_between hs hkeyed hchild hparent hkey
  · exact candidate_between hs hkeyed hparent hchild hc

theorem owns_of_singleKey {t : Table} (ht : t.Laid) {id : ColumnId} (h : singleKey t = some id) :
    t.Owns id := by
  unfold singleKey at h
  split at h
  · rename_i column hkey
    cases h
    apply ht.owns_of_mem_primaryKey
    rw [hkey]
    exact List.mem_singleton.mpr rfl
  · cases h

/-- The pairs of a hop lie between its tables, where the declared columns are theirs. -/
theorem hop_between (hs : s.Sound) (hkeyed : s.Keyed) {source target : Table}
    (hsource : source ∈ s.tables) (htarget : target ∈ s.tables) {left right : Option ColumnId}
    (hleft : ∀ l ∈ left, source.Owns l) (hright : ∀ r ∈ right, target.Owns r)
    {pairs : List JoinPair} (h : hop source left target right = some pairs) :
    PairsBetween source target pairs := by
  have hone : ∀ l r, source.Owns l → target.Owns r → PairsBetween source target [⟨l, r⟩] := by
    intro l r hl hr pair hpair
    rw [List.mem_singleton.mp hpair]
    exact ⟨hl, hr⟩
  unfold hop at h
  split at h
  · cases h
    exact hone _ _ (hleft _ rfl) (hright _ rfl)
  · simp only at h
    split at h
    · rename_i found hfound
      cases h
      rcases List.mem_append.mp (List.mem_of_find?_eq_some hfound) with hforward | hbackward
      · obtain ⟨key, hkey, rfl⟩ := List.mem_map.mp hforward
        exact forward_between hs hkeyed hsource htarget hkey
      · obtain ⟨key, hkey, rfl⟩ := List.mem_map.mp hbackward
        exact backward_between hs hkeyed htarget hsource hkey
    · split at h
      · obtain ⟨r, hr, rfl⟩ := Option.map_eq_some_iff.mp h
        exact hone _ _ (hleft _ rfl) (owns_of_singleKey (hs.laid target htarget) hr)
      · obtain ⟨l, hl, rfl⟩ := Option.map_eq_some_iff.mp h
        exact hone _ _ (owns_of_singleKey (hs.laid source hsource) hl) (hright _ rfl)
      · cases h

/-- A hop that was found pairs at least one column. -/
theorem hop_ne_nil (hs : s.Sound) {source target : Table} (hsource : source ∈ s.tables)
    (htarget : target ∈ s.tables) {left right : Option ColumnId} {pairs : List JoinPair}
    (h : hop source left target right = some pairs) : pairs ≠ [] := by
  unfold hop at h
  split at h
  · cases h
    exact List.cons_ne_nil _ _
  · simp only at h
    split at h
    · rename_i found hfound
      cases h
      rcases List.mem_append.mp (List.mem_of_find?_eq_some hfound) with hforward | hbackward
      · obtain ⟨key, hkey, rfl⟩ := List.mem_map.mp hforward
        exact forward_ne_nil (keysTo_paired hs hsource hkey)
      · obtain ⟨key, hkey, rfl⟩ := List.mem_map.mp hbackward
        exact backward_ne_nil (keysTo_paired hs htarget hkey)
    · split at h
      · obtain ⟨r, _, rfl⟩ := Option.map_eq_some_iff.mp h
        exact List.cons_ne_nil _ _
      · obtain ⟨l, _, rfl⟩ := Option.map_eq_some_iff.mp h
        exact List.cons_ne_nil _ _
      · cases h

end Link

/-- Each leg is entered from the table of the one before, by at least one pair. -/
def LegsFrom (s : Schema) : Table → List Leg → Prop
  | _, [] => True
  | source, leg :: rest =>
    leg.table ∈ s.tables ∧ PairsBetween source leg.table leg.pairs ∧ leg.pairs ≠ [] ∧
      LegsFrom s leg.table rest

namespace Resolver

variable {r : Resolver}

theorem link_between (hs : r.schema.Sound) (hkeyed : r.schema.Keyed) {parent child : Table}
    (hparent : parent ∈ r.schema.tables) (hchild : child ∈ r.schema.tables) {field : String}
    {many : Bool} {path : Path} {link : Link}
    (hlink : r.link parent child field many path = .ok link) :
    link.Between r.schema parent child := by
  obtain ⟨found, hfound, hlink⟩ := except_bind_ok.mp hlink
  split at hlink
  · cases hlink
    exact Link.infer_between hs hkeyed hparent hchild hfound
  · cases hlink

theorem owns_of_hopColumn {table : Table} {missing : Expected → Error} {name : Option String}
    {column : Option ColumnId} (h : hopColumn table missing name = .ok column) :
    ∀ id ∈ column, table.Owns id := by
  intro id hid
  unfold hopColumn at h
  split at h
  · cases h
    cases hid
  · split at h
    · rename_i found hfound
      cases h
      cases hid
      exact Table.owns_of_findColumn hfound
    · cases h

theorem legs_from (hs : r.schema.Sound) (hkeyed : r.schema.Keyed) {missing : Expected → Error}
    {source : Table} (hsource : source ∈ r.schema.tables) {left : Option String} {hops : List Hop}
    {legs : List Leg} (h : r.legs missing source left hops = .ok legs) :
    LegsFrom r.schema source legs := by
  induction hops generalizing source left legs with
  | nil =>
    cases h
    trivial
  | cons hop rest ih =>
    unfold Resolver.legs at h
    split at h
    · cases h
    · rename_i target hfound
      obtain ⟨leftColumn, hleft, h⟩ := except_bind_ok.mp h
      obtain ⟨rightColumn, hright, h⟩ := except_bind_ok.mp h
      split at h
      · cases h
      · rename_i pairs hpairs
        obtain ⟨others, hothers, h⟩ := except_bind_ok.mp h
        cases h
        have htarget := Schema.mem_of_findTable hfound
        exact ⟨htarget, Link.hop_between hs hkeyed hsource htarget (owns_of_hopColumn hleft)
          (owns_of_hopColumn hright) hpairs, Link.hop_ne_nil hs hsource htarget hpairs,
          ih htarget hothers⟩

theorem via_from (hs : r.schema.Sound) (hkeyed : r.schema.Keyed) {start : Table}
    (hstart : start ∈ r.schema.tables) {v : Via} {path : Path} {legs : List Leg}
    (h : r.via start v path = .ok legs) : LegsFrom r.schema start legs := by
  obtain ⟨hops, _, h⟩ := except_bind_ok.mp h
  simp only at h
  split at h
  · cases h
    trivial
  · split at h
    · cases h
    · rename_i source hsource
      obtain ⟨hfound, hid⟩ := Option.filter_eq_some_iff.mp hsource
      have hsame : source = start :=
        hs.eq_of_id (Schema.mem_of_findTable hfound) hstart (by simpa using hid)
      rw [hsame] at h
      exact legs_from hs hkeyed hstart h

end Resolver

/-- A step from `parent` to the table of a place: an embedded place stays on the table, any other one
is joined by pairs between the two, and one to a single row is joined by the key of its table. -/
structure Step.From (s : Schema) (parent : Table) (step : Step) : Prop where
  table : step.table ∈ s.tables
  pairs : PairsBetween parent step.table step.join
  embedded : step.kind = .embedded → step.table = parent ∧ step.join = []
  root : step.kind ≠ .root
  single : step.kind = .navigation false → coversKey s step.join = true
  paired : step.kind ≠ .embedded → step.join ≠ []

/-- Each step sets out from the table of the one before. -/
def StepsFrom (s : Schema) : Table → List Step → Prop
  | _, [] => True
  | parent, step :: rest => step.From s parent ∧ StepsFrom s step.table rest

namespace Step

theorem ofLink_from (hs : s.Sound) {parent target : Table} (htarget : target ∈ s.tables)
    {link : Link} (hlink : link.Sound s) (hbetween : link.Between s parent target) (list : Bool) :
    StepsFrom s parent (Step.ofLink s target link list) := by
  cases link with
  | parentHolds pairs | childHolds pairs =>
    refine ⟨⟨htarget, hbetween, nofun, nofun, ?_, fun _ => hlink⟩, trivial⟩
    intro hkind
    simp only [Link.isMany, RelationKind.navigation.injEq, Bool.or_eq_false_iff,
      Bool.not_eq_eq_eq_not, Bool.not_false] at hkind
    exact hkind.2
  | junction table toParent toChild =>
    obtain ⟨⟨junction, hjunction, rfl⟩, htoParent, htoChild⟩ := hlink
    have hmem : s.table junction.id ∈ s.tables := by
      rw [hs.table_id hjunction]
      exact hjunction
    exact ⟨⟨hmem, hbetween.1, nofun, nofun, nofun, fun _ => htoParent⟩,
      ⟨htarget, hbetween.2, nofun, nofun, nofun, fun _ => htoChild⟩, trivial⟩

theorem ofLegs_from {parent : Table} (list : Bool) {legs : List Leg} (hlegs : LegsFrom s parent legs) :
    StepsFrom s parent (Step.ofLegs s list legs) := by
  induction legs generalizing parent with
  | nil => trivial
  | cons leg rest ih =>
    obtain ⟨htable, hpairs, hpaired, hrest⟩ := hlegs
    cases rest with
    | nil =>
      refine ⟨⟨htable, hpairs, nofun, nofun, ?_, fun _ => hpaired⟩, trivial⟩
      intro hkind
      simp only [RelationKind.navigation.injEq, Bool.or_eq_false_iff, Bool.not_eq_eq_eq_not,
        Bool.not_false] at hkind
      exact hkind.2
    | cons second rest =>
      exact ⟨⟨htable, hpairs, nofun, nofun, nofun, fun _ => hpaired⟩, ih hrest⟩

end Step

theorem StepsFrom.mem_tables {parent : Table} {steps : List Step} (h : StepsFrom s parent steps) :
    ∀ step ∈ steps, step.table ∈ s.tables := by
  induction steps generalizing parent with
  | nil => exact nofun
  | cons step rest ih =>
    intro other hother
    rcases List.mem_cons.mp hother with rfl | hmem
    · exact h.1.table
    · exact ih h.2 other hmem

namespace Resolver

variable {r : Resolver}

/-- The steps to a field's place set out from its parent's table. -/
theorem stepsTo_from (hs : r.schema.Sound) (hkeyed : r.schema.Keyed) {table : Table}
    (htable : table ∈ r.schema.tables) {field : Field} {steps : List Step}
    (h : r.stepsTo table field = .ok steps) : StepsFrom r.schema table steps := by
  rcases stepsTo_cases h with
    ⟨v, legs, _, hlegs, rfl⟩ | ⟨_, ⟨target, link, hfound, hlink, rfl⟩ | ⟨_, rfl⟩⟩
  · exact Step.ofLegs_from _ (via_from hs hkeyed htable hlegs)
  · have htarget := mem_of_shapeTable hfound
    exact Step.ofLink_from hs htarget (link_sound hs htable htarget hlink)
      (link_between hs hkeyed htable htarget hlink) _
  · refine ⟨⟨htable, pairsBetween_nil _ _, fun _ => ⟨rfl, rfl⟩, ?_, ?_,
      fun hkind => absurd rfl hkind⟩, trivial⟩
    · intro hroot
      cases hroot
    · intro hsingle
      cases hsingle

end Resolver

end ShapeSql
