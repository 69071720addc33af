import ShapeSql.Proofs.Schema.Declaration
import ShapeSql.Relation.Resolver

namespace ShapeSql

variable {s : Schema}

namespace Link

/-- A link pairs at least one column on every step, and a junction is a table of the schema. -/
def Sound (s : Schema) : Link → Prop
  | .parentHolds pairs | .childHolds pairs => pairs ≠ []
  | .junction table toParent toChild =>
    (∃ t ∈ s.tables, t.id = table) ∧ toParent ≠ [] ∧ toChild ≠ []

theorem mem_of_pick {keys : List ForeignKey} {field referenced : String} {key : ForeignKey}
    (h : pick s keys field referenced = some key) : key ∈ keys := by
  unfold pick at h
  split at h
  · cases h
  · cases h
    exact List.mem_singleton.mpr rfl
  · rename_i first rest _
    split at h
    · rename_i found hfound
      cases h
      exact List.mem_of_find?_eq_some hfound
    · cases hnamed : (first :: rest).find? fun key => key.startsWith s referenced with
      | none =>
        rw [hnamed] at h
        cases h
        exact List.mem_cons_self
      | some found =>
        rw [hnamed] at h
        cases h
        exact List.mem_of_find?_eq_some hnamed

theorem keysTo_paired (h : s.Sound) {t : Table} (ht : t ∈ s.tables) {target : TableId}
    {key : ForeignKey} (hkey : key ∈ t.keysTo target) : key.pairs ≠ [] :=
  h.paired t ht key (List.mem_of_mem_filter hkey)

theorem forward_ne_nil {key : ForeignKey} (h : key.pairs ≠ []) : key.forward ≠ [] := by
  rw [ForeignKey.forward, ne_eq, List.map_eq_nil_iff]
  exact h

theorem backward_ne_nil {key : ForeignKey} (h : key.pairs ≠ []) : key.backward ≠ [] := by
  rw [ForeignKey.backward, ne_eq, List.map_eq_nil_iff]
  exact h

theorem junctionKeys_mem {parent child table : Table} {keys : ForeignKey × ForeignKey}
    (h : junctionKeys parent child table = some keys) :
    (∃ target, keys.1 ∈ table.keysTo target) ∧ ∃ target, keys.2 ∈ table.keysTo target := by
  unfold junctionKeys at h
  split at h
  · cases h
  · split at h
    · split at h
      · rename_i toParent toChild hkeys
        cases h
        exact ⟨⟨parent.id, by simp [hkeys]⟩, parent.id, by simp [hkeys]⟩
      · cases h
    · split at h
      · rename_i toParent toChild hparent hchild
        cases h
        exact ⟨⟨parent.id, by simp [hparent]⟩, child.id, by simp [hchild]⟩
      · cases h

theorem candidate_sound (h : s.Sound) {parent child : Table} {c : Candidate}
    (hc : c ∈ candidates s parent child) : c.link.Sound s := by
  obtain ⟨table, htable, hkeys⟩ := List.mem_filterMap.mp hc
  obtain ⟨keys, hpair, rfl⟩ := Option.map_eq_some_iff.mp hkeys
  obtain ⟨⟨_, hparent⟩, _, hchild⟩ := junctionKeys_mem hpair
  refine ⟨⟨table, htable, rfl⟩, ?_, ?_⟩
  · exact backward_ne_nil (keysTo_paired h htable hparent)
  · exact forward_ne_nil (keysTo_paired h htable hchild)

theorem candidate_of_throughJunction {parent child : Table} {policy : JunctionPolicy} {link : Link}
    (hlink : throughJunction s parent child policy = .ok (some link)) :
    ∃ c ∈ candidates s parent child, link = c.link := by
  unfold throughJunction at hlink
  split at hlink
  · cases hlink
  · cases hlink
  · rename_i first rest hnarrowest _
    cases hlink
    have hfirst : first ∈ narrowest (candidates s parent child) := by
      rw [hnarrowest]
      exact List.mem_cons_self
    exact ⟨first, List.mem_of_mem_filter hfirst, rfl⟩

/-- A link is inferred from a foreign key between the two tables, in either direction, or else from a
junction. -/
theorem infer_cases {parent child : Table} {field : String} {many : Bool} {policy : JunctionPolicy}
    {link : Link} (hlink : infer s parent child field many policy = .ok (some link)) :
    (∃ key ∈ parent.keysTo child.id, link = .parentHolds key.forward) ∨
      (∃ key ∈ child.keysTo parent.id, link = .childHolds key.backward) ∨
      ∃ c ∈ candidates s parent child, link = c.link := by
  have hparentHolds : ∀ link, ((pick s (parent.keysTo child.id) field child.name).map fun key =>
      Link.parentHolds key.forward) = some link →
        ∃ key ∈ parent.keysTo child.id, link = .parentHolds key.forward := by
    intro link hlink
    obtain ⟨key, hkey, rfl⟩ := Option.map_eq_some_iff.mp hlink
    exact ⟨key, mem_of_pick hkey, rfl⟩
  have hchildHolds : ∀ link, ((pick s (child.keysTo parent.id) field parent.name).map fun key =>
      Link.childHolds key.backward) = some link →
        ∃ key ∈ child.keysTo parent.id, link = .childHolds key.backward := by
    intro link hlink
    obtain ⟨key, hkey, rfl⟩ := Option.map_eq_some_iff.mp hlink
    exact ⟨key, mem_of_pick hkey, rfl⟩
  unfold infer at hlink
  simp only at hlink
  split at hlink
  · rename_i hdirect
    cases hlink
    split at hdirect
    · rcases Option.or_eq_some_iff.mp hdirect with hfirst | ⟨_, hsecond⟩
      · exact Or.inr (Or.inl (hchildHolds link hfirst))
      · exact Or.inl (hparentHolds link hsecond)
    · rcases Option.or_eq_some_iff.mp hdirect with hfirst | ⟨_, hsecond⟩
      · exact Or.inl (hparentHolds link hfirst)
      · exact Or.inr (Or.inl (hchildHolds link hsecond))
  · exact Or.inr (Or.inr (candidate_of_throughJunction hlink))

/-- A link between two tables of the schema is sound. -/
theorem infer_sound (h : s.Sound) {parent child : Table} (hparent : parent ∈ s.tables)
    (hchild : child ∈ s.tables) {field : String} {many : Bool} {policy : JunctionPolicy}
    {link : Link} (hlink : infer s parent child field many policy = .ok (some link)) :
    link.Sound s := by
  rcases infer_cases hlink with ⟨key, hkey, rfl⟩ | ⟨key, hkey, rfl⟩ | ⟨c, hc, rfl⟩
  · exact forward_ne_nil (keysTo_paired h hparent hkey)
  · exact backward_ne_nil (keysTo_paired h hchild hkey)
  · exact candidate_sound h hc

end Link

namespace Resolver

variable {r : Resolver}

theorem mem_of_findTable {name : String} {t : Table} (h : r.findTable name = some t) :
    t ∈ r.schema.tables := by
  obtain ⟨spelling, _, hfound⟩ := List.exists_of_findSome?_eq_some h
  exact Schema.mem_of_findTable hfound

theorem mem_of_shapeTable {field : Field} {t : Table} (h : r.shapeTable field = .ok (some t)) :
    t ∈ r.schema.tables := by
  unfold shapeTable at h
  split at h
  · split at h
    · rename_i found hfound
      cases h
      exact Schema.mem_of_findTable hfound
    · cases h
  · rw [Except.ok.injEq, Option.bind_eq_some_iff] at h
    obtain ⟨shape, _, hfound⟩ := h
    exact mem_of_findTable hfound

theorem link_sound (h : r.schema.Sound) {parent child : Table} (hparent : parent ∈ r.schema.tables)
    (hchild : child ∈ r.schema.tables) {field : String} {many : Bool} {path : Path} {link : Link}
    (hlink : r.link parent child field many path = .ok link) : link.Sound r.schema := by
  obtain ⟨found, hfound, hlink⟩ := except_bind_ok.mp hlink
  split at hlink
  · cases hlink
    exact Link.infer_sound h hparent hchild hfound
  · cases hlink

theorem legs_mem {missing : Expected → Error} {source : Table} {left : Option String}
    {hops : List Hop} {legs : List Leg} (h : r.legs missing source left hops = .ok legs) :
    ∀ leg ∈ legs, leg.table ∈ r.schema.tables := by
  induction hops generalizing source left legs with
  | nil =>
    cases h
    exact nofun
  | cons hop rest ih =>
    unfold Resolver.legs at h
    split at h
    · cases h
    · rename_i target htarget
      obtain ⟨leftColumn, _, h⟩ := except_bind_ok.mp h
      obtain ⟨rightColumn, _, h⟩ := except_bind_ok.mp h
      split at h
      · cases h
      · obtain ⟨others, hothers, h⟩ := except_bind_ok.mp h
        cases h
        intro leg hleg
        rcases List.mem_cons.mp hleg with rfl | hmem
        · exact Schema.mem_of_findTable htarget
        · exact ih hothers leg hmem

theorem via_mem {start : Table} {v : Via} {path : Path} {legs : List Leg}
    (h : r.via start v path = .ok legs) : ∀ leg ∈ legs, leg.table ∈ r.schema.tables := by
  obtain ⟨hops, _, h⟩ := except_bind_ok.mp h
  simp only at h
  split at h
  · cases h
    exact nofun
  · split at h
    · cases h
    · exact legs_mem h

end Resolver

end ShapeSql
