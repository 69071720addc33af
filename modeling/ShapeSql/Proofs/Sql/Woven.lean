import ShapeSql.Proofs.Except
import ShapeSql.Proofs.Sql.Tokens

namespace ShapeSql.Sql

/-- The word starts with a character that is not a quote. -/
def isSeam (text : String) : Bool :=
  match text.toList with
  | [] => false
  | c :: _ => c != '"' && c != '\''

/-- A word that may stand between two parts. -/
def Separates (text : String) : Prop := isSeam text = true ∧ Balanced (Lexeme.word text).tokens

/-- A word that ends by opening a parenthesis. -/
def Opens (text : String) : Prop :=
  isSeam text = true ∧ Token.depthAfter 0 (Lexeme.word text).tokens = some 1

/-- A word that closes a parenthesis. -/
def Closes (text : String) : Prop :=
  isSeam text = true ∧ Token.depthAfter 1 (Lexeme.word text).tokens = some 0

instance (text : String) : Decidable (Separates text) := inferInstanceAs (Decidable (_ ∧ _))

instance (text : String) : Decidable (Opens text) := inferInstanceAs (Decidable (_ ∧ _))

instance (text : String) : Decidable (Closes text) := inferInstanceAs (Decidable (_ ∧ _))

/-- Texts that are put together from names, literals, numbers and variables by words between them and
around them. -/
inductive Woven : List Lexeme → Prop where
  | nil : Woven []
  | name (text : String) : Woven [.name text]
  | literal (text : String) : Woven [.literal text]
  | number (value : Int) : Woven [.number value]
  | atName (text : String) : Woven [.atName text]
  | join {word : String} {v w : List Lexeme} : Separates word → Woven v → Woven w →
      Woven (v ++ .word word :: w)
  | enclose {first last : String} {v w rest : List Lexeme} : Opens first → Closes last → Woven v →
      Woven w → Woven rest → Woven (v ++ .word first :: (w ++ .word last :: rest))

/-- What is written in place of holes is woven. -/
structure HolePrinter.Weaves (holes : HolePrinter) : Prop where
  expr : ∀ id w, holes.expr id = .ok w → Woven w
  order : ∀ id items, holes.order id = .ok items → ∀ w ∈ items, Woven w

theorem HolePrinter.weaves_refusing (fault : HoleId → Fault) : (refusing fault).Weaves := ⟨nofun, nofun⟩

/-- What holds of nothing and can be joined by the separator holds of items that it separates, if it holds
of all of them. -/
theorem separated_induction {P : List Lexeme → Prop} {separator : String} (hnil : P [])
    (hjoin : ∀ v w, P v → P w → P (v ++ .word separator :: w)) {items : List (List Lexeme)}
    (h : ∀ w ∈ items, P w) : P (separated separator items) := by
  induction items with
  | nil => exact hnil
  | cons w items ih =>
    rw [List.forall_mem_cons] at h
    cases items with
    | nil => simpa [Sql.separated] using h.1
    | cons next items =>
      have hrest := ih h.2
      rw [Sql.separated] at hrest
      rw [Sql.separated, List.intercalate_cons_cons, List.append_assoc]
      exact hjoin w _ h.1 hrest

namespace Woven

variable {v w : List Lexeme} {word : String}

theorem word_cons (hword : Separates word) (h : Woven w) : Woven (.word word :: w) := .join hword .nil h

theorem append_word (h : Woven v) (hword : Separates word) : Woven (v ++ [.word word]) :=
  .join hword h .nil

theorem enclosed {first last : String} (hfirst : Opens first) (hlast : Closes last) (h : Woven w) :
    Woven (.word first :: w ++ [.word last]) := .enclose hfirst hlast .nil h .nil

theorem separated {separator : String} (hseparator : Separates separator) {items : List (List Lexeme)}
    (h : ∀ w ∈ items, Woven w) : Woven (separated separator items) :=
  separated_induction .nil (fun _ _ => .join hseparator) h

theorem commaed {items : List (List Lexeme)} (h : ∀ w ∈ items, Woven w) : Woven (commaed items) :=
  .separated (by decide) h

theorem append_asWritten (h : Woven v) (aliasName : Option String) : Woven (v ++ asWritten aliasName) := by
  cases aliasName with
  | none => exact (List.append_nil v).symm ▸ h
  | some name => exact .join (by decide) h (.name name)

theorem append_direction (h : Woven v) (direction : Option Direction) :
    Woven (v ++ Direction.written direction) := by
  rcases direction with _ | _ | _
  · exact (List.append_nil v).symm ▸ h
  · exact h.append_word (by decide)
  · exact h.append_word (by decide)

theorem columnWritten (qualifier : Option Qualifier) (name : String) :
    Woven (columnWritten qualifier name) := by
  rcases qualifier with _ | aliasName | _
  · exact .name name
  · exact .join (v := [.name aliasName]) (by decide) (.name aliasName) (.name name)
  · exact .word_cons (by decide) (.name name)

theorem append_clause (h : Woven v) (hword : Separates word) {item : Option (List Lexeme)}
    (hitem : ∀ w ∈ item, Woven w) : Woven (v ++ clause word item) := by
  cases item with
  | none => exact (List.append_nil v).symm ▸ h
  | some w => exact .join hword h (hitem w rfl)

theorem append_groupBy (h : Woven v) {groups : List (List Lexeme)} (hgroups : ∀ w ∈ groups, Woven w) :
    Woven (v ++ if groups.isEmpty then [] else .word " GROUP BY " :: Sql.commaed groups) := by
  split
  · exact (List.append_nil v).symm ▸ h
  · exact .join (by decide) h (.commaed hgroups)

theorem append_orderWritten (h : Woven v) (paged : Bool) {terms : List (List Lexeme)}
    (hterms : ∀ w ∈ terms, Woven w) : Woven (v ++ orderWritten paged terms) := by
  cases terms with
  | nil =>
    cases paged
    · exact (List.append_nil v).symm ▸ h
    · exact h.append_word (by decide)
  | cons term terms => exact .join (by decide) h (.commaed hterms)

theorem append_pageWritten (h : Woven v) {offset fetch : Option (List Lexeme)}
    (hoffset : ∀ w ∈ offset, Woven w) (hfetch : ∀ w ∈ fetch, Woven w) :
    Woven (v ++ pageWritten offset fetch) := by
  rcases offset with _ | offset <;> rcases fetch with _ | fetch
  · exact (List.append_nil v).symm ▸ h
  · have htaken : Woven (v ++ .word " OFFSET 0 ROWS FETCH NEXT " :: fetch) :=
      .join (by decide) h (hfetch fetch rfl)
    have hrows : Woven (_ ++ [.word " ROWS ONLY"]) := htaken.append_word (by decide)
    rwa [List.append_assoc] at hrows
  · have hskipped : Woven (v ++ .word " OFFSET " :: offset) := .join (by decide) h (hoffset offset rfl)
    have hrows : Woven (_ ++ [.word " ROWS"]) := hskipped.append_word (by decide)
    rwa [List.append_assoc] at hrows
  · have hskipped : Woven (v ++ .word " OFFSET " :: offset) := .join (by decide) h (hoffset offset rfl)
    have htaken : Woven (.word " FETCH NEXT " :: fetch) := .word_cons (by decide) (hfetch fetch rfl)
    have hboth : Woven (_ ++ .word " ROWS" :: .word " FETCH NEXT " :: fetch) :=
      .join (by decide) hskipped htaken
    have hrows : Woven (_ ++ [.word " ROWS ONLY"]) := hboth.append_word (by decide)
    simpa only [pageWritten, List.append_assoc, List.cons_append] using hrows

end Woven

section Written

variable {holes : HolePrinter}

-- The induction is over the tree: the parts of a node are woven, and the words of the node are all of the
-- kinds that weave them together.
mutual

theorem Expr.woven_written (h : holes.Weaves) :
    ∀ (e : Expr) {w : List Lexeme}, e.written holes = .ok w → Woven w
  | .all operands, w, hw => by
    simp only [Expr.written, except_bind_ok] at hw
    obtain ⟨items, hitems, hpure⟩ := hw
    cases hpure
    exact .separated (by decide) (exprs_woven h operands hitems)
  | .any operands, w, hw => by
    simp only [Expr.written, except_bind_ok] at hw
    obtain ⟨items, hitems, hpure⟩ := hw
    cases hpure
    exact .enclosed (by decide) (by decide) (.separated (by decide) (exprs_woven h operands hitems))
  | .compare left op right, w, hw => by
    simp only [Expr.written, except_bind_ok] at hw
    obtain ⟨l, hl, r, hr, hpure⟩ := hw
    cases hpure
    have hsign : Separates (" " ++ op.sign ++ " ") := by
      cases op <;> decide
    exact .join hsign (left.woven_written h hl) (right.woven_written h hr)
  | .column qualifier name, w, hw => by
    cases hw
    exact .columnWritten qualifier name
  | .exists query negated, w, hw => by
    simp only [Expr.written, except_bind_ok] at hw
    obtain ⟨q, hq, hpure⟩ := hw
    cases hpure
    have hfirst : Opens (if negated then "NOT EXISTS (" else "EXISTS (") := by
      cases negated <;> decide
    exact .enclosed hfirst (by decide) (query.woven_written h hq)
  | .group inner, w, hw => by
    simp only [Expr.written, except_bind_ok] at hw
    obtain ⟨e, he, hpure⟩ := hw
    cases hpure
    exact .enclosed (by decide) (by decide) (inner.woven_written h he)
  | .hole id, w, hw => h.expr id w hw
  | .inList item [] negated, w, hw => nomatch hw
  | .inList item (first :: rest) negated, w, hw => by
    simp only [Expr.written, except_bind_ok] at hw
    obtain ⟨e, he, head, hhead, tail, htail, hpure⟩ := hw
    cases hpure
    have hitems : Woven (commaed (head :: tail)) :=
      .commaed (List.forall_mem_cons.mpr ⟨first.woven_written h hhead, exprs_woven h rest htail⟩)
    have hfirst : Opens (if negated then " NOT IN (" else " IN (") := by
      cases negated <;> decide
    rw [List.append_assoc, List.cons_append]
    exact .enclose hfirst (by decide) (item.woven_written h he) hitems .nil
  | .isNull item negated, w, hw => by
    simp only [Expr.written, except_bind_ok] at hw
    obtain ⟨e, he, hpure⟩ := hw
    cases hpure
    refine (item.woven_written h he).append_word ?_
    cases negated <;> decide
  | .like item pattern negated, w, hw => by
    simp only [Expr.written, except_bind_ok] at hw
    obtain ⟨e, he, p, hp, hpure⟩ := hw
    cases hpure
    refine .join ?_ (item.woven_written h he) (pattern.woven_written h hp)
    cases negated <;> decide
  | .countAll, w, hw | .null, w, hw => by
    cases hw
    exact .word_cons (by decide) .nil
  | .int value, w, hw => by
    cases hw
    exact .number _
  | .text value, w, hw => by
    cases hw
    exact .literal value
  | .param name, w, hw => by
    cases hw
    exact .atName name

theorem exprs_woven (h : holes.Weaves) :
    ∀ (es : List Expr) {items : List (List Lexeme)}, exprsWritten holes es = .ok items →
      ∀ w ∈ items, Woven w
  | [], items, hw => by
    cases hw
    exact List.forall_mem_nil _
  | e :: es, items, hw => by
    simp only [exprsWritten, except_bind_ok] at hw
    obtain ⟨first, hfirst, rest, hrest, hpure⟩ := hw
    cases hpure
    exact List.forall_mem_cons.mpr ⟨e.woven_written h hfirst, exprs_woven h es hrest⟩

theorem optional_woven (h : holes.Weaves) :
    ∀ (e : Option Expr) {item : Option (List Lexeme)}, optionalWritten holes e = .ok item →
      ∀ w ∈ item, Woven w
  | none, item, hw => by
    cases hw
    exact nofun
  | some e, item, hw => by
    simp only [optionalWritten, except_bind_ok] at hw
    obtain ⟨w, hw, hpure⟩ := hw
    cases hpure
    intro w' hw'
    cases hw'
    exact e.woven_written h hw

theorem Query.woven_written (h : holes.Weaves) :
    ∀ (q : Query) {w : List Lexeme}, q.written holes = .ok w → Woven w
  | ⟨distinct, projection, source, filter, groupBy, orderBy, offset, fetch⟩, w, hw => by
    simp only [Query.written, except_bind_ok] at hw
    obtain ⟨items, hitems, from', hfrom, where', hwhere, groups, hgroups, terms, hterms, skip, hskip,
      take, htake, hpure⟩ := hw
    cases hpure
    have hhead : Separates (if distinct then "SELECT DISTINCT " else "SELECT ") := by
      cases distinct <;> decide
    have hselect := Woven.word_cons hhead (.commaed (projected_woven h projection hitems))
    have hread : Woven (_ ++ clause " FROM " from') :=
      hselect.append_clause (by decide) (source_woven h source hfrom)
    have hfiltered : Woven (_ ++ clause " WHERE " where') :=
      hread.append_clause (by decide) (optional_woven h filter hwhere)
    have hgrouped := hfiltered.append_groupBy (exprs_woven h groupBy hgroups)
    exact (hgrouped.append_orderWritten _ (orderItems_woven h orderBy hterms)).append_pageWritten
      (optional_woven h offset hskip) (optional_woven h fetch htake)

theorem projected_woven (h : holes.Weaves) :
    ∀ (ps : List Projected) {items : List (List Lexeme)}, projectedWritten holes ps = .ok items →
      ∀ w ∈ items, Woven w
  | [], items, hw => by
    cases hw
    exact List.forall_mem_nil _
  | ⟨expr, aliasName⟩ :: rest, items, hw => by
    simp only [projectedWritten, except_bind_ok] at hw
    obtain ⟨e, he, others, hothers, hpure⟩ := hw
    cases hpure
    exact List.forall_mem_cons.mpr
      ⟨(expr.woven_written h he).append_asWritten aliasName, projected_woven h rest hothers⟩

theorem source_woven (h : holes.Weaves) :
    ∀ (s : Option Source) {item : Option (List Lexeme)}, sourceWritten holes s = .ok item →
      ∀ w ∈ item, Woven w
  | none, item, hw => by
    cases hw
    exact nofun
  | some ⟨base, joins⟩, item, hw => by
    simp only [sourceWritten, except_bind_ok] at hw
    obtain ⟨b, hb, js, hjs, hpure⟩ := hw
    cases hpure
    intro w hw
    cases hw
    exact joins_woven h joins (base.woven_written h hb) hjs

/-- What is written in front is part of the induction, since a join starts with a word. -/
theorem joins_woven (h : holes.Weaves) :
    ∀ (js : List Join) {v w : List Lexeme}, Woven v → joinsWritten holes js = .ok w → Woven (v ++ w)
  | [], v, w, hv, hw => by
    cases hw
    exact (List.append_nil v).symm ▸ hv
  | ⟨kind, factor, condition⟩ :: rest, v, w, hv, hw => by
    simp only [joinsWritten, except_bind_ok] at hw
    obtain ⟨joined, hjoined, on, hon, others, hothers, hpure⟩ := hw
    cases hpure
    have hkind : Separates (joinWord kind) := by
      cases kind <;> decide
    have hfactor := Woven.join hkind hv (factor.woven_written h hjoined)
    have hjoin : Woven (_ ++ .word " ON " :: on) :=
      .join (by decide) hfactor (condition.woven_written h hon)
    have hall := joins_woven h rest hjoin hothers
    simpa only [List.append_assoc, List.cons_append] using hall

theorem Factor.woven_written (h : holes.Weaves) :
    ∀ (s : Factor) {w : List Lexeme}, s.written holes = .ok w → Woven w
  | .table name aliasName, w, hw => by
    cases hw
    exact (Woven.name name).append_asWritten aliasName
  | .tableVar name aliasName, w, hw => by
    cases hw
    exact (Woven.atName name).append_asWritten aliasName
  | .derived query aliasName, w, hw => by
    simp only [Factor.written, except_bind_ok] at hw
    obtain ⟨q, hq, hpure⟩ := hw
    cases hpure
    exact .enclose (v := []) (by decide) (by decide) .nil (query.woven_written h hq) (.name aliasName)

theorem orderItems_woven (h : holes.Weaves) :
    ∀ (items : List OrderItem) {terms : List (List Lexeme)},
      orderItemsWritten holes items = .ok terms → ∀ w ∈ terms, Woven w
  | [], terms, hw => by
    cases hw
    exact List.forall_mem_nil _
  | .term ⟨expr, direction⟩ :: rest, terms, hw => by
    simp only [orderItemsWritten, except_bind_ok] at hw
    obtain ⟨e, he, others, hothers, hpure⟩ := hw
    cases hpure
    exact List.forall_mem_cons.mpr
      ⟨(expr.woven_written h he).append_direction direction, orderItems_woven h rest hothers⟩
  | .hole id :: rest, terms, hw => by
    simp only [orderItemsWritten, except_bind_ok] at hw
    obtain ⟨bound, hbound, others, hothers, hpure⟩ := hw
    cases hpure
    exact List.forall_mem_append.mpr ⟨h.order id bound hbound, orderItems_woven h rest hothers⟩

end

end Written

section Nesting

/-- Each parenthesis among the tokens has its counterpart. -/
def Nests (w : List Lexeme) : Prop := Balanced (tokensOf w)

theorem Nests.append {v w : List Lexeme} (h : Nests v) (h' : Nests w) : Nests (v ++ w) := by
  rw [Nests, tokensOf_append]
  exact Balanced.append h h'

theorem Nests.cons {l : Lexeme} {w : List Lexeme} (h : Balanced l.tokens) (h' : Nests w) :
    Nests (l :: w) := by
  rw [Nests, tokensOf_cons]
  exact h.append h'

/-- One word opens a parenthesis and another one closes it. -/
theorem Nests.enclosed {first last : String} {w rest : List Lexeme} (hfirst : Opens first)
    (hlast : Closes last) (h : Nests w) (hrest : Nests rest) :
    Nests (.word first :: (w ++ .word last :: rest)) := by
  have hinner : Token.depthAfter 1 (tokensOf w) = some 1 := Token.depthAfter_add h 1
  rw [Nests, Balanced, tokensOf_cons, tokensOf_append, tokensOf_cons]
  simp only [Token.depthAfter_append, hfirst.2, hinner, hlast.2, Option.bind_some]
  exact hrest

theorem Woven.nests {w : List Lexeme} (h : Woven w) : Nests w := by
  induction h with
  | nil => exact Balanced.nil
  | name _ | literal _ | number _ | atName _ => rfl
  | join hword _ _ hv hw => exact hv.append (.cons hword.2 hw)
  | enclose hfirst hlast _ _ _ hv hw hrest => exact hv.append (.enclosed hfirst hlast hw hrest)

end Nesting

end ShapeSql.Sql
