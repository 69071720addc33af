import ShapeSql.Proofs.Sql.Leaf
import ShapeSql.Proofs.Sql.Related

namespace ShapeSql.Sql

variable {subs : Substitution} {f : HoleFiller}

/-- The parameters among the first leaves occur below the second ones. -/
def MentionedIn (subs : Substitution) (filled leaves : List Leaf) : Prop :=
  ∀ name, .param name ∈ filled → ∃ l ∈ leaves, l.Mentions subs name

namespace MentionedIn

variable {filled leaves more others : List Leaf}

theorem nil (leaves : List Leaf) : MentionedIn subs [] leaves := fun _ h => nomatch h

theorem append (h : MentionedIn subs filled leaves) (h' : MentionedIn subs more others) :
    MentionedIn subs (filled ++ more) (leaves ++ others) := by
  intro name hname
  rcases List.mem_append.mp hname with hleft | hright
  · obtain ⟨l, hl, hmentions⟩ := h name hleft
    exact ⟨l, List.mem_append_left _ hl, hmentions⟩
  · obtain ⟨l, hl, hmentions⟩ := h' name hright
    exact ⟨l, List.mem_append_right _ hl, hmentions⟩

/-- What occurs below a hole. -/
theorem of_hole {place : Place} {id : HoleId}
    (h : ∀ name, .param name ∈ filled → (Leaf.hole place id).Mentions subs name) :
    MentionedIn subs filled [.hole place id] :=
  fun name hname => ⟨_, List.mem_singleton.mpr rfl, h name hname⟩

theorem param (name : String) : MentionedIn subs [.param name] [.param name] := by
  intro other hother
  cases List.mem_singleton.mp hother
  exact ⟨_, List.mem_singleton.mpr rfl, .param⟩

end MentionedIn

/-- What is put into the holes of conditions and orderings mentions no other parameters than what these
are bound to. -/
structure HoleFiller.MentionsOnly (f : HoleFiller) (subs : Substitution) : Prop where
  expr : ∀ id name, .param name ∈ (f.expr id).collect .leaves () →
    (Leaf.hole .expr id).Mentions subs name
  order : ∀ id name, .param name ∈ orderItemsCollect .leaves () (f.order id) →
    (Leaf.hole .order id).Mentions subs name

theorem HoleFiller.MentionsOnly.relates (hf : f.MentionsOnly subs) :
    f.Relates .leaves .leaves fun leaves filled => MentionedIn subs filled leaves where
  nil := .nil _
  append := .append
  inside _ _ := rfl
  column _ _ _ := .nil _
  param _ name := .param name
  emptyList _ := fun _ hname => nomatch List.mem_singleton.mp hname
  tableVar _ := .nil _
  ordering _ := .nil _
  clause _ _ := .nil _
  expr _ id := .of_hole (hf.expr id)
  order _ id := .of_hole (hf.order id)

namespace HoleFiller

/-- One more layer mentions what the fragments mention. -/
theorem MentionsOnly.filling (hf : f.MentionsOnly subs) : (filling subs f).MentionsOnly subs where
  expr id name hname := by
    unfold HoleFiller.filling at hname
    simp only at hname
    split at hname
    · rename_i e hfound
      obtain ⟨l, hl, hmentions⟩ := e.related hf.relates name hname
      exact .hole hfound hl hmentions
    · rw [Expr.collect] at hname
      exact nomatch List.mem_singleton.mp hname
  order id name hname := by
    unfold HoleFiller.filling at hname
    simp only at hname
    split at hname
    · rename_i terms hfound
      obtain ⟨l, hl, hmentions⟩ := orderTerms_related hf.relates terms name hname
      exact .hole hfound hl hmentions
    · rw [orderItemsCollect] at hname
      exact nomatch List.mem_singleton.mp hname

theorem mentionsOnly_nested (subs : Substitution) (n : Nat) : (nested subs n).MentionsOnly subs := by
  induction n with
  | zero =>
    refine MentionsOnly.filling ⟨?_, ?_⟩
    · intro id name hname
      exact nomatch List.mem_singleton.mp hname
    · intro id name hname
      exact nomatch List.mem_singleton.mp hname
  | succ n ih => exact ih.filling

end HoleFiller

end ShapeSql.Sql
