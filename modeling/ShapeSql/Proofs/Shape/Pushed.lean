import ShapeSql.Proofs.Arena
import ShapeSql.Shape.FieldTree

namespace ShapeSql

namespace Tree

variable {α : Type}

/-- The entries with a new one at the end, a child of the entry at `parent`. -/
def push (entries : List (Entry α)) (parent : Option Nat) (a : α) : List (Entry α) :=
  let pushed := entries ++ [⟨entries.length, a, parent, []⟩]
  match parent with
  | none => pushed
  | some p => pushed.modify p fun e => { e with children := e.children ++ [entries.length] }

/-- The entries with another label at `id`. -/
def relabel (entries : List (Entry α)) (id : Nat) (a : α) : List (Entry α) :=
  entries.modify id fun e => { e with label := a }

theorem modify_middle {β : Type} (before after : List β) (b : β) (f : β → β) :
    (before ++ b :: after).modify before.length f = before ++ f b :: after := by
  induction before with
  | nil => exact List.modify_zero_cons _ _ _
  | cons first before ih =>
    rw [List.cons_append, List.length_cons, List.modify_succ_cons, ih, List.cons_append]

theorem relabel_last (before : List (Entry α)) (e : Entry α) (a : α) :
    relabel (before ++ [e]) before.length a = before ++ [{ e with label := a }] :=
  modify_middle before [] e _

theorem positions_append (next : Nat) (ts : List (Tree α)) (t : Tree α) :
    positions next (ts ++ [t]) = positions next ts ++ [next + sizeAll ts] := by
  induction ts generalizing next with
  | nil => rfl
  | cons first ts ih =>
    rw [List.cons_append, positions, positions, ih, sizeAll, Nat.add_assoc, List.cons_append]

theorem arenaFromAll_append (next parent : Nat) (ts : List (Tree α)) (t : Tree α) :
    arenaFromAll next parent (ts ++ [t]) =
      arenaFromAll next parent ts ++ t.arenaFrom (next + sizeAll ts) (some parent) := by
  induction ts generalizing next with
  | nil => exact List.append_nil _
  | cons first ts ih =>
    rw [List.cons_append, arenaFromAll, arenaFromAll, ih, sizeAll, Nat.add_assoc, List.append_assoc]

/-- The entries of a tree whose next child has been pushed, but not unfolded. -/
def opened (a : α) (done : List (Tree α)) (next : Nat) (parent : Option Nat) : List (Entry α) :=
  ⟨next, a, parent, positions (next + 1) done ++ [next + (Tree.node a done).size]⟩ ::
    arenaFromAll (next + 1) next done

theorem length_opened (before : List (Entry α)) (a : α) (done : List (Tree α)) (parent : Option Nat) :
    (before ++ opened a done before.length parent).length =
      (before ++ (Tree.node a done).arenaFrom before.length parent).length := by
  rw [opened, arenaFrom, List.length_append, List.length_append, List.length_cons, List.length_cons]

theorem push_arenaFrom (before : List (Entry α)) (a b : α) (done : List (Tree α)) (parent : Option Nat) :
    push (before ++ (Tree.node a done).arenaFrom before.length parent) (some before.length) b =
      before ++ opened a done before.length parent ++
        [⟨(before ++ opened a done before.length parent).length, b, some before.length, []⟩] := by
  have hlength : (before ++ (Tree.node a done).arenaFrom before.length parent).length =
      before.length + (Tree.node a done).size := by rw [List.length_append, length_arenaFrom]
  rw [length_opened, push, hlength]
  show (_ : List (Entry α)).modify before.length _ = _
  rw [arenaFrom, List.append_assoc, List.cons_append, modify_middle, List.append_assoc, opened,
    List.cons_append]

theorem opened_arenaFrom (before : List (Entry α)) (a : α) (done : List (Tree α)) (t : Tree α)
    (parent : Option Nat) :
    before ++ opened a done before.length parent ++
        t.arenaFrom (before ++ opened a done before.length parent).length (some before.length) =
      before ++ (Tree.node a (done ++ [t])).arenaFrom before.length parent := by
  have hnext : before.length + (sizeAll done + 1) = before.length + 1 + sizeAll done := by omega
  rw [length_opened, List.length_append, length_arenaFrom, opened, arenaFrom, positions_append,
    arenaFromAll_append, List.append_assoc, List.cons_append, size, hnext]

theorem LeadsUp.append {entries more : List (Entry α)} {parent : Option Nat} {above : List α}
    (h : LeadsUp entries parent above) : LeadsUp (entries ++ more) parent above := by
  induction h with
  | top => exact .top
  | step hentry _ ih =>
    refine .step ?_ ih
    rw [List.getElem?_append_left (List.getElem?_eq_some_iff.mp hentry).1]
    exact hentry

end Tree

namespace FieldTree

open ShapeSql.Tree (Entry)

/-- Unfolds the entry at `id`: it is marked, or the fields of its shape are pushed below it, each of them
unfolded before the next one. What stands above is read off the entries. -/
def pushBelow (shapes : Shapes) : Nat → List (Entry Field) → Nat → Except Error (List (Entry Field))
  | 0, entries, _ => .ok entries
  | depth + 1, entries, id =>
    match entries[id]? with
    | none => .ok entries
    | some entry =>
      match entry.label.type.shapeName? with
      | none => .ok entries
      | some name =>
        match shapes.get? name with
        | none => .error (.badName entry.label.path.display (.shape name))
        | some shape =>
          let bound := { entry.label with table := shape.table }
          if isCyclic bound name ((Tree.ancestors entries id id).map Entry.label) then
            .ok (Tree.relabel entries id { bound with cyclic := true })
          else
            shape.fields.foldlM (fun entries d => pushBelow shapes depth
              (Tree.push entries (some id) (place d (bound.path.join d.name) (some (shape.name, d.name))))
              entries.length) (Tree.relabel entries id bound)

/-- The entries of the tree of a type, as they are pushed. -/
def pushType (name : String) (type : FieldType) (shapes : Shapes) : Except Error (List (Entry Field)) :=
  pushBelow shapes (depthBound shapes)
    (Tree.push [] none (place ⟨name, type, false, default⟩ .root none)) 0

/-- The entries of the tree of an argument list, as they are pushed. -/
def pushFields (fields : List FieldDef) (shapes : Shapes) : Except Error (List (Entry Field)) :=
  fields.foldlM (fun entries d => pushBelow shapes (depthBound shapes)
    (Tree.push entries (some 0) (place d (Path.root.join d.name) none)) entries.length)
    (Tree.push [] none argumentRoot)

/-- Where each child that is pushed is unfolded into its tree, all of them are, in order. -/
theorem foldlM_push {unfold : List (Entry Field) → Nat → Except Error (List (Entry Field))}
    {child : FieldDef → Field} {make : FieldDef → Except Error FieldTree} {before : List (Entry Field)}
    {parent : Option Nat} {label : Field} {above : List Field}
    (hbelow : ∀ d entries, Tree.LeadsUp entries (some before.length) (label :: above) →
      (label :: above).length ≤ entries.length →
        unfold (entries ++ [⟨entries.length, child d, some before.length, []⟩]) entries.length =
          (make d).map fun t => entries ++ t.arenaFrom entries.length (some before.length))
    (habove : Tree.LeadsUp before parent above) (hlength : above.length ≤ before.length)
    (fields : List FieldDef) (done : List FieldTree) :
    fields.foldlM (fun entries d => unfold (Tree.push entries (some before.length) (child d))
        entries.length) (before ++ (Tree.node label done).arenaFrom before.length parent) =
      (do
        let kids ← fields.mapM make
        return Tree.node label (done ++ kids)).map
          fun (t : FieldTree) => before ++ t.arenaFrom before.length parent := by
  induction fields generalizing done with
  | nil =>
    show Except.ok _ = Except.ok (before ++ (Tree.node label (done ++ [])).arenaFrom before.length parent)
    rw [List.append_nil]
  | cons d fields ih =>
    obtain ⟨entries, hentries⟩ : ∃ entries,
        entries = before ++ Tree.opened label done before.length parent := ⟨_, rfl⟩
    have hup : Tree.LeadsUp entries (some before.length) (label :: above) := by
      have hroot : entries[before.length]? = (Tree.opened label done before.length parent)[0]? := by
        rw [hentries, List.getElem?_append_right (Nat.le_refl _), Nat.sub_self]
      exact .step hroot (hentries ▸ habove.append)
    have hlonger : (label :: above).length ≤ entries.length := by
      rw [hentries, List.length_append, Tree.opened, List.length_cons, List.length_cons]
      omega
    have hsame : (before ++ (Tree.node label done).arenaFrom before.length parent).length =
        entries.length := by rw [hentries, Tree.length_opened]
    rw [List.foldlM_cons, List.mapM_cons, Tree.push_arenaFrom, ← hentries, hsame,
      hbelow d entries hup hlonger]
    cases make d with
    | error e => rfl
    | ok t =>
      show List.foldlM _ (entries ++ t.arenaFrom entries.length (some before.length)) _ = _
      rw [hentries, Tree.opened_arenaFrom, ih]
      cases fields.mapM make with
      | error e => rfl
      | ok kids =>
        show Except.ok _ = Except.ok _
        rw [List.append_assoc, List.singleton_append]

/-- An entry at the end is unfolded into the arena of its tree, and the entries before it stay. -/
theorem pushBelow_eq {shapes : Shapes} {depth : Nat} {before : List (Entry Field)} {parent : Option Nat}
    {field : Field} {above : List Field} (habove : Tree.LeadsUp before parent above)
    (hlength : above.length ≤ before.length) :
    pushBelow shapes depth (before ++ [⟨before.length, field, parent, []⟩]) before.length =
      (expand shapes depth above field).map fun t => before ++ t.arenaFrom before.length parent := by
  induction depth generalizing before parent field above with
  | zero => rfl
  | succ depth ih =>
    have hentry : (before ++ [(⟨before.length, field, parent, []⟩ : Entry Field)])[before.length]? =
        some ⟨before.length, field, parent, []⟩ := List.getElem?_concat_length
    have hparent : (before ++ [(⟨before.length, field, parent, []⟩ : Entry Field)])[before.length]?.bind
        Entry.parent = parent := by rw [hentry, Option.bind_some]
    have hancestors := habove.append.ancestors_eq hparent hlength
    unfold pushBelow expand
    simp only [hentry]
    cases hname : field.type.shapeName? with
    | none => rfl
    | some name =>
      cases hshape : shapes.get? name with
      | none => simp only [hshape]; rfl
      | some shape =>
        simp only [hshape, hancestors, Tree.relabel_last]
        split
        · rfl
        · exact foldlM_push (fun _ _ => ih) habove hlength shape.fields []

theorem pushType_eq (name : String) (type : FieldType) (shapes : Shapes) :
    pushType name type shapes = (ofType name type shapes).map Tree.arena :=
  pushBelow_eq .top (Nat.le_refl 0)

theorem pushFields_eq (fields : List FieldDef) (shapes : Shapes) :
    pushFields fields shapes = (ofFields fields shapes).map Tree.arena :=
  foldlM_push (fun _ _ => pushBelow_eq) (.top : Tree.LeadsUp [] none []) (Nat.le_refl 0) fields []

end FieldTree
end ShapeSql
