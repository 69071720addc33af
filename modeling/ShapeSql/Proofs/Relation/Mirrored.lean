import ShapeSql.Proofs.Relation.Links

namespace ShapeSql

/-- The equality with its sides exchanged. -/
def JoinPair.swap (pair : JoinPair) : JoinPair := ⟨pair.child, pair.parent⟩

theorem ForeignKey.map_swap_forward (key : ForeignKey) :
    key.forward.map JoinPair.swap = key.backward := by
  rw [forward, backward, List.map_map]
  rfl

theorem ForeignKey.map_swap_backward (key : ForeignKey) :
    key.backward.map JoinPair.swap = key.forward := by
  rw [forward, backward, List.map_map]
  rfl

namespace Link

/-- The link that leads from the child back to the parent. -/
def mirror : Link → Link
  | .parentHolds pairs => .childHolds (pairs.map JoinPair.swap)
  | .childHolds pairs => .parentHolds (pairs.map JoinPair.swap)
  | .junction table toParent toChild =>
    .junction table (toChild.map JoinPair.swap) (toParent.map JoinPair.swap)

/-- What is inferred from the one side and from the other: a link and its mirror image, none on both
sides, or a refusal that names the same junctions. -/
inductive Mirrored : Except Error (Option Link) → Except Error (Option Link) → Prop where
  | inferred (link : Option Link) : Mirrored (.ok link) (.ok (link.map mirror))
  | refused (parent child : String) (junctions : List String) :
    Mirrored (.error (.of (.ambiguousRelation parent child junctions)))
      (.error (.of (.ambiguousRelation child parent junctions)))

/-- The candidate with its two keys exchanged. -/
def Candidate.mirror (c : Candidate) : Candidate := ⟨c.table, c.toChild, c.toParent⟩

theorem Candidate.link_mirror (c : Candidate) : c.mirror.link = c.link.mirror := by
  rw [Candidate.link, Candidate.link, Link.mirror, ForeignKey.map_swap_forward,
    ForeignKey.map_swap_backward]
  rfl

section Junctions

variable {s : Schema} {parent child : Table}

theorem junctionKeys_swap (h : parent.id ≠ child.id) (table : Table) :
    junctionKeys child parent table = (junctionKeys parent child table).map Prod.swap := by
  unfold junctionKeys
  rw [if_neg h, if_neg (Ne.symm h)]
  by_cases hside : table.id = parent.id ∨ table.id = child.id
  · rw [if_pos hside, if_pos hside.symm]
    rfl
  · rw [if_neg hside, if_neg fun hother => hside hother.symm]
    rcases table.keysTo parent.id with _ | ⟨toParent, _ | _⟩ <;>
      rcases table.keysTo child.id with _ | ⟨toChild, _ | _⟩ <;> rfl

theorem candidates_mirror (s : Schema) (h : parent.id ≠ child.id) :
    candidates s child parent = (candidates s parent child).map Candidate.mirror := by
  rw [candidates, candidates, List.map_filterMap]
  apply List.filterMap_congr
  intro table _
  rw [junctionKeys_swap h, Option.map_map, Option.map_map]
  rfl

theorem narrowest_mirror (cs : List Candidate) :
    narrowest (cs.map Candidate.mirror) = (narrowest cs).map Candidate.mirror := by
  rw [narrowest, narrowest, List.filter_map]
  congr 1
  apply List.filter_congr
  intro c _
  rw [Function.comp_apply, List.all_map]
  rfl

theorem throughJunction_mirrored (s : Schema) (h : parent.id ≠ child.id) (policy : JunctionPolicy) :
    Mirrored (throughJunction s parent child policy) (throughJunction s child parent policy) := by
  have hlink : ∀ c : Candidate, Mirrored (.ok (some c.link)) (.ok (some c.mirror.link)) := by
    intro c
    rw [c.link_mirror]
    exact .inferred (some c.link)
  unfold throughJunction
  rw [candidates_mirror s h, narrowest_mirror]
  rcases narrowest (candidates s parent child) with _ | ⟨first, _ | ⟨second, rest⟩⟩
  · exact .inferred none
  · cases policy with
    | warn | error => exact hlink first
  · cases policy with
    | warn => exact hlink first
    | error =>
      have hnames : ((first :: second :: rest).map Candidate.mirror).map (fun c => c.table.name) =
          (first :: second :: rest).map fun c => c.table.name := by
        rw [List.map_map]
        rfl
      show Mirrored _ (.error (.of (.ambiguousRelation child.name parent.name
        (((first :: second :: rest).map Candidate.mirror).map fun c => c.table.name))))
      rw [hnames]
      exact .refused parent.name child.name _

/-- A key between the two is picked by the same names on both sides; only the direction that is tried first
is a matter of the side, and the two sides try the same key first. -/
theorem infer_turned (s : Schema) (h : parent.id ≠ child.id) (field : String)
    (policy : JunctionPolicy) :
    Mirrored (infer s parent child field false policy) (infer s child parent field true policy) := by
  have hheld : ∀ key : ForeignKey,
      Mirrored (.ok (some (.parentHolds key.forward))) (.ok (some (.childHolds key.backward))) := by
    intro key
    rw [← key.map_swap_forward]
    exact .inferred (some (.parentHolds key.forward))
  have howned : ∀ key : ForeignKey,
      Mirrored (.ok (some (.childHolds key.backward))) (.ok (some (.parentHolds key.forward))) := by
    intro key
    rw [← key.map_swap_backward]
    exact .inferred (some (.childHolds key.backward))
  unfold infer
  cases pick s (parent.keysTo child.id) field child.name with
  | some key => exact hheld key
  | none =>
    cases pick s (child.keysTo parent.id) field parent.name with
    | some key => exact howned key
    | none => exact throughJunction_mirrored s h policy

end Junctions

/-- Between two tables of a schema a single field of the one and a collection of the other infer the same
link, each from its own side, and the columns of every pair are those of the tables that it leads between. -/
theorem infer_mirrored {ds : List TableDeclaration} {s : Schema} (hs : Schema.build ds = .ok s)
    {parent child : Table} (hparent : parent ∈ s.tables) (hchild : child ∈ s.tables)
    (hother : parent ≠ child) (field : String) (policy : JunctionPolicy) :
    Mirrored (infer s parent child field false policy) (infer s child parent field true policy) ∧
      (∀ link, infer s parent child field false policy = .ok (some link) → link.Between s parent child) ∧
      ∀ link, infer s child parent field true policy = .ok (some link) → link.Between s child parent := by
  have hsound := Schema.build_sound hs
  have hkeyed := Schema.build_keyed hs
  have hid : parent.id ≠ child.id := fun hid => hother (hsound.eq_of_id hparent hchild hid)
  exact ⟨infer_turned s hid field policy, fun _ => infer_between hsound hkeyed hparent hchild,
    fun _ => infer_between hsound hkeyed hchild hparent⟩

/-- People and tags of a tenant, paired by a table that refers to both by its one tenant column. -/
def taggingDeclarations : List TableDeclaration := [
  ⟨"Person", .table, [⟨"TenantId", .integer 4, false, true, false⟩, ⟨"Id", .integer 4, false, true, false⟩],
    []⟩,
  ⟨"Tag", .table, [⟨"TenantId", .integer 4, false, true, false⟩, ⟨"Id", .integer 4, false, true, false⟩],
    []⟩,
  ⟨"PersonTag", .table, [⟨"TenantId", .integer 4, false, true, false⟩,
    ⟨"PersonId", .integer 4, false, true, false⟩, ⟨"TagId", .integer 4, false, true, false⟩],
    [⟨["TenantId", "PersonId"], "Person", []⟩, ⟨["TenantId", "TagId"], "Tag", []⟩]⟩]

/-- The pairs of the junction seen from a person and from a tag. -/
theorem infer_mirrored_tagging : ∃ s person tag, Schema.build taggingDeclarations = .ok s ∧
    person ∈ s.tables ∧ tag ∈ s.tables ∧ person ≠ tag ∧
      infer s person tag "Tags" false .error = .ok (some (.junction ⟨2⟩
        [⟨⟨⟨0⟩, 0⟩, ⟨⟨2⟩, 0⟩⟩, ⟨⟨⟨0⟩, 1⟩, ⟨⟨2⟩, 1⟩⟩] [⟨⟨⟨2⟩, 0⟩, ⟨⟨1⟩, 0⟩⟩, ⟨⟨⟨2⟩, 2⟩, ⟨⟨1⟩, 1⟩⟩])) ∧
      infer s tag person "Tags" true .error = .ok (some (.junction ⟨2⟩
        [⟨⟨⟨1⟩, 0⟩, ⟨⟨2⟩, 0⟩⟩, ⟨⟨⟨1⟩, 1⟩, ⟨⟨2⟩, 2⟩⟩] [⟨⟨⟨2⟩, 0⟩, ⟨⟨0⟩, 0⟩⟩, ⟨⟨⟨2⟩, 1⟩, ⟨⟨0⟩, 1⟩⟩])) ∧
      Mirrored (infer s person tag "Tags" false .error) (infer s tag person "Tags" true .error) ∧
      (∀ link, infer s person tag "Tags" false .error = .ok (some link) → link.Between s person tag) ∧
      ∀ link, infer s tag person "Tags" true .error = .ok (some link) → link.Between s tag person := by
  have htest : (Schema.build taggingDeclarations).toOption.any (fun s =>
      (s.findTable "Person").any fun person => (s.findTable "Tag").any fun tag =>
        decide (person ∈ s.tables ∧ tag ∈ s.tables ∧ person ≠ tag) &&
        (infer s person tag "Tags" false .error).toOption == some (some (.junction ⟨2⟩
          [⟨⟨⟨0⟩, 0⟩, ⟨⟨2⟩, 0⟩⟩, ⟨⟨⟨0⟩, 1⟩, ⟨⟨2⟩, 1⟩⟩] [⟨⟨⟨2⟩, 0⟩, ⟨⟨1⟩, 0⟩⟩, ⟨⟨⟨2⟩, 2⟩, ⟨⟨1⟩, 1⟩⟩])) &&
        (infer s tag person "Tags" true .error).toOption == some (some (.junction ⟨2⟩
          [⟨⟨⟨1⟩, 0⟩, ⟨⟨2⟩, 0⟩⟩, ⟨⟨⟨1⟩, 1⟩, ⟨⟨2⟩, 2⟩⟩] [⟨⟨⟨2⟩, 0⟩, ⟨⟨0⟩, 0⟩⟩, ⟨⟨⟨2⟩, 1⟩, ⟨⟨0⟩, 1⟩⟩]))) =
      true := by
    decide +kernel
  obtain ⟨s, hs, htest⟩ := exists_ok_of_any htest
  simp only [Option.any_eq_true, Bool.and_eq_true, decide_eq_true_eq, beq_iff_eq] at htest
  obtain ⟨person, _, tag, _, ⟨⟨hperson, htag, hother⟩, hsingle⟩, hmany⟩ := htest
  exact ⟨s, person, tag, hs, hperson, htag, hother, ok_of_toOption hsingle, ok_of_toOption hmany,
    infer_mirrored hs hperson htag hother "Tags" .error⟩

end Link
end ShapeSql
