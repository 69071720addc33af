import Mathlib.Data.List.Chain
import ShapeSql.Proofs.Sql.Woven

namespace ShapeSql.Sql

section Reading

/-- The text up to the quote that ends it, and what is left behind that. Two quotes stand for one. -/
def readQuoted (quote : Char) : List Char → Option (List Char × List Char)
  | [] => none
  | [c] => if c = quote then some ([], []) else none
  | c :: d :: rest =>
    if c ≠ quote then (readQuoted quote (d :: rest)).map fun p => (c :: p.1, p.2)
    else if d = quote then (readQuoted quote rest).map fun p => (quote :: p.1, p.2)
    else some ([], d :: rest)

/-- Reads an identifier or a string literal at the start of a text. -/
def readToken : List Char → Option (Lexeme × List Char)
  | '"' :: rest => (readQuoted '"' rest).map fun p => (.name (String.ofList p.1), p.2)
  | 'N' :: '\'' :: rest => (readQuoted '\'' rest).map fun p => (.literal (String.ofList p.1), p.2)
  | _ => none

variable {quote : Char} {rest : List Char}

/-- A quote that no other one follows ends the text. -/
theorem readQuoted_end (h : rest.head? ≠ some quote) : readQuoted quote (quote :: rest) = some ([], rest) := by
  cases rest with
  | nil => rw [readQuoted, if_pos rfl]
  | cons d rest =>
    have hd : d ≠ quote := fun hd => h (congrArg some hd)
    rw [readQuoted, if_neg (not_not.mpr rfl), if_neg hd]

theorem readQuoted_cons {c : Char} (h : c ≠ quote) {text left : List Char}
    (hrest : readQuoted quote rest = some (text, left)) :
    readQuoted quote (c :: rest) = some (c :: text, left) := by
  cases rest with
  | nil => cases hrest
  | cons d rest => rw [readQuoted, if_pos h, hrest, Option.map_some]

/-- A text is read back from its characters with the quotes doubled, whatever is in it. -/
theorem readQuoted_doubled (h : rest.head? ≠ some quote) (text : List Char) :
    readQuoted quote (doubled quote text ++ quote :: rest) = some (text, rest) := by
  induction text with
  | nil => exact readQuoted_end h
  | cons c text ih =>
    rw [doubled]
    split
    · rename_i hc
      rw [List.cons_append, List.cons_append, readQuoted, if_neg (not_not.mpr rfl), if_pos rfl, ih, hc,
        Option.map_some]
    · rename_i hc
      rw [List.cons_append]
      exact readQuoted_cons hc ih

theorem readToken_name (text : String) (h : rest.head? ≠ some '"') :
    readToken ((Lexeme.name text).chars ++ rest) = some (.name text, rest) := by
  have hchars : (Lexeme.name text).chars ++ rest = '"' :: (doubled '"' text.toList ++ '"' :: rest) := by
    simp [Lexeme.chars, quoted]
  rw [hchars, readToken, readQuoted_doubled h, Option.map_some, String.ofList_toList]

theorem readToken_literal (text : String) (h : rest.head? ≠ some '\'') :
    readToken ((Lexeme.literal text).chars ++ rest) = some (.literal text, rest) := by
  have hchars : (Lexeme.literal text).chars ++ rest =
      'N' :: '\'' :: (doubled '\'' text.toList ++ '\'' :: rest) := by
    simp [Lexeme.chars, quoted]
  rw [hchars, readToken, readQuoted_doubled h, Option.map_some, String.ofList_toList]

end Reading

section Sealing

/-- Whether the lexeme ends by a quote. -/
def Lexeme.isQuoted : Lexeme → Bool
  | .name _ | .literal _ => true
  | .word _ | .number _ | .atName _ => false

/-- Behind a quoted lexeme comes a word that does not start with a quote. -/
def Lexeme.Apart (l next : Lexeme) : Prop :=
  l.isQuoted = true → ∃ word, next = .word word ∧ isSeam word = true

/-- Each quoted lexeme is apart from the one after it. -/
def Sealed (w : List Lexeme) : Prop := List.IsChain Lexeme.Apart w

namespace Sealed

variable {v w : List Lexeme} {word : String}

theorem nil : Sealed [] := List.IsChain.nil

theorem singleton (l : Lexeme) : Sealed [l] := List.IsChain.singleton l

/-- What is not quoted may stand in front of anything. -/
theorem cons {l : Lexeme} (hl : l.isQuoted = false) (h : Sealed w) : Sealed (l :: w) := by
  cases w with
  | nil => exact .singleton l
  | cons next w =>
    refine .cons_cons (fun hquoted => ?_) h
    rw [hl] at hquoted
    cases hquoted

theorem word_cons (h : Sealed w) : Sealed (.word word :: w) := cons rfl h

/-- A word that does not start with a quote keeps two parts from each other. -/
theorem join (hword : isSeam word = true) (h : Sealed v) (h' : Sealed w) :
    Sealed (v ++ .word word :: w) := by
  refine List.isChain_append.mpr ⟨h, h'.word_cons, fun l _ next hnext _ => ?_⟩
  cases hnext
  exact ⟨word, rfl, hword⟩

theorem append_word (h : Sealed v) (hword : isSeam word = true) : Sealed (v ++ [.word word]) :=
  join hword h .nil

theorem separated {separator : String} (hseparator : isSeam separator = true)
    {items : List (List Lexeme)} (h : ∀ w ∈ items, Sealed w) : Sealed (separated separator items) :=
  separated_induction .nil (fun _ _ => .join hseparator) h

theorem commaed {items : List (List Lexeme)} (h : ∀ w ∈ items, Sealed w) : Sealed (commaed items) :=
  .separated (by decide) h

theorem namesWritten (names : List String) : Sealed (namesWritten names) := by
  refine .commaed ?_
  rw [List.forall_mem_map]
  exact fun name _ => .singleton (.name name)

/-- What follows a quoted lexeme does not start with a quote. -/
theorem head?_ne {before after : List Lexeme} {l : Lexeme} (h : Sealed (before ++ l :: after))
    (hl : l.isQuoted = true) {quote : Char} (hquote : quote = '"' ∨ quote = '\'') :
    (after.flatMap Lexeme.chars).head? ≠ some quote := by
  cases after with
  | nil => exact nofun
  | cons next after =>
    obtain ⟨word, rfl, hword⟩ := (List.isChain_append_cons_cons.mp h).2.1 hl
    have hstart : ∃ c ∈ word.toList.head?, c ≠ '"' ∧ c ≠ '\'' := by
      unfold isSeam at hword
      split at hword
      · cases hword
      · rename_i c cs hchars
        rw [hchars]
        exact ⟨c, rfl, by simpa using hword⟩
    obtain ⟨c, hc, hdouble, hsingle⟩ := hstart
    rw [List.flatMap_cons, Lexeme.chars, List.head?_append, Option.mem_def.mp hc]
    rintro ⟨⟩
    exact hquote.elim hdouble hsingle

end Sealed

theorem Woven.sealed {w : List Lexeme} (h : Woven w) : Sealed w := by
  induction h with
  | nil => exact .nil
  | name _ | literal _ | number _ | atName _ => exact .singleton _
  | join hword _ _ hv hw => exact hv.join hword.1 hw
  | enclose hfirst hlast _ _ _ hv hw hrest => exact hv.join hfirst.1 (hw.join hlast.1 hrest)

end Sealing

section Statements

/-- All that is written in place of holes is sealed. -/
structure HolePrinter.Seals (holes : HolePrinter) : Prop extends holes.Weaves where
  assignments : ∀ id items, holes.assignments id = .ok items → ∀ w ∈ items, Sealed w
  rows : ∀ id data, holes.rows id = .ok data → ∀ row ∈ data, ∀ w ∈ row, Sealed w

variable {holes : HolePrinter}

theorem orderTerms_woven (h : holes.Weaves) {terms : List OrderTerm} {items : List (List Lexeme)}
    (hw : orderTermsWritten holes terms = .ok items) : ∀ w ∈ items, Woven w := by
  intro w hmem
  obtain ⟨t, _, ht⟩ := mem_of_mapM_ok hw hmem
  obtain ⟨e, he, hpure⟩ := except_bind_ok.mp ht
  cases hpure
  exact (t.expr.woven_written h he).append_direction t.direction

theorem Assignment.sealed_written (h : holes.Weaves) {a : Assignment} {w : List Lexeme}
    (hw : assignmentWritten holes a = .ok w) : Sealed w := by
  cases a with
  | set column value =>
    obtain ⟨v, hv, hpure⟩ := except_bind_ok.mp hw
    cases hpure
    exact .join (v := [.name column]) (by decide) (.singleton _) (value.woven_written h hv).sealed
  | hole id => cases hw

theorem rows_sealed (h : holes.Weaves) {rows : List (List Expr)} {data : List (List (List Lexeme))}
    (hw : rowsWritten holes rows = .ok data) : ∀ row ∈ data, ∀ w ∈ row, Sealed w := by
  intro row hrow w hmem
  obtain ⟨es, _, hes⟩ := mem_of_mapM_ok hw hrow
  exact (exprs_woven h es hes w hmem).sealed

namespace HolePrinter

theorem seals_refusing (fault : HoleId → Fault) : (refusing fault).Seals :=
  ⟨weaves_refusing fault, nofun, nofun⟩

/-- Fragments are sealed if what is written in their own holes is. -/
theorem Seals.filling {inner : HolePrinter} (h : inner.Seals) (subs : Substitution) :
    (filling subs inner).Seals where
  expr id w hw := by
    simp only [HolePrinter.filling] at hw
    split at hw
    · rename_i e _
      exact e.woven_written h.toWeaves hw
    · cases hw
    · cases hw
  order id items hw := by
    simp only [HolePrinter.filling] at hw
    split at hw
    · exact orderTerms_woven h.toWeaves hw
    · cases hw
    · cases hw
  assignments id items hw := by
    simp only [HolePrinter.filling] at hw
    split at hw
    · intro w hmem
      obtain ⟨a, _, ha⟩ := mem_of_mapM_ok hw hmem
      exact a.sealed_written h.toWeaves ha
    · cases hw
    · cases hw
  rows id data hw := by
    simp only [HolePrinter.filling] at hw
    split at hw
    · exact rows_sealed h.toWeaves hw
    · cases hw
    · cases hw

theorem seals_nested (subs : Substitution) (depth : Nat) : (nested subs depth).Seals := by
  induction depth with
  | zero => exact (seals_refusing .circular).filling subs
  | succ depth ih => exact ih.filling subs

end HolePrinter

theorem assignments_sealed (h : holes.Seals) {list : List Assignment} {items : List (List Lexeme)}
    (hw : assignmentsWritten holes list = .ok items) : ∀ w ∈ items, Sealed w := by
  induction list generalizing items with
  | nil =>
    cases hw
    exact List.forall_mem_nil _
  | cons a list ih =>
    cases a with
    | set column value =>
      obtain ⟨first, hfirst, hw⟩ := except_bind_ok.mp hw
      obtain ⟨others, hothers, hpure⟩ := except_bind_ok.mp hw
      cases hpure
      exact List.forall_mem_cons.mpr ⟨Assignment.sealed_written h.toWeaves hfirst, ih hothers⟩
    | hole id =>
      obtain ⟨bound, hbound, hw⟩ := except_bind_ok.mp hw
      obtain ⟨others, hothers, hpure⟩ := except_bind_ok.mp hw
      cases hpure
      exact List.forall_mem_append.mpr ⟨h.assignments id bound hbound, ih hothers⟩

/-- A clause of sealed items behind what is sealed. -/
theorem Sealed.append_clause {v : List Lexeme} {word : String} (hv : Sealed v)
    (hword : isSeam word = true) {item : Option (List Lexeme)} (h : ∀ w ∈ item, Sealed w) :
    Sealed (v ++ clause word item) := by
  cases item with
  | none => exact (List.append_nil v).symm ▸ hv
  | some w => exact hv.join hword (h w rfl)

theorem insertHead_sealed (target : InsertTarget) (columns : List String) :
    Sealed (insertHead target columns) := by
  have htarget : Sealed target.written := by
    cases target <;> exact .singleton _
  rw [insertHead]
  split
  · exact (List.append_nil _).symm ▸ htarget.word_cons
  · exact htarget.word_cons.join (by decide) ((Sealed.namesWritten columns).append_word (by decide))

theorem mem_of_mem_chunksUpTo {α : Type} {size : Nat} {group : List α} {item : α} (hitem : item ∈ group) :
    ∀ (fuel : Nat) {items : List α}, group ∈ chunksUpTo size fuel items → item ∈ items
  | 0, _, h => nomatch h
  | _ + 1, [], h => nomatch h
  | fuel + 1, first :: items, h => by
    rcases List.mem_cons.mp h with rfl | h
    · exact List.mem_of_mem_take hitem
    · exact List.mem_of_mem_drop (mem_of_mem_chunksUpTo hitem fuel h)

theorem insertRows_sealed {head : List Lexeme} (hhead : Sealed head) (columns : List String)
    {data : List (List (List Lexeme))} (h : ∀ row ∈ data, ∀ w ∈ row, Sealed w) :
    Sealed (insertRows head columns data) := by
  cases data with
  | nil =>
    have hnulls : ∀ w ∈ columns.map (fun _ => [Lexeme.word "NULL"]), Sealed w := by
      rw [List.forall_mem_map]
      exact fun _ _ => .singleton _
    exact (hhead.join (by decide) (.commaed hnulls)).append_word (by decide)
  | cons first data =>
    refine .separated (by decide) ?_
    rw [List.forall_mem_map]
    intro group hgroup
    refine hhead.join (by decide) (.commaed ?_)
    rw [List.forall_mem_map]
    intro row hrow
    exact ((Sealed.commaed (h row (mem_of_mem_chunksUpTo hrow _ hgroup))).word_cons).append_word (by decide)

theorem insert_sealed (h : holes.Seals) {target : InsertTarget} {columns : List String}
    {source : InsertSource} {w : List Lexeme} (hw : insertWritten holes target columns source = .ok w) :
    Sealed w := by
  have hhead := insertHead_sealed target columns
  unfold insertWritten at hw
  simp only at hw
  split at hw
  · cases hw
    exact hhead.append_word (by decide)
  · split at hw
    · obtain ⟨data, hdata, hpure⟩ := except_bind_ok.mp hw
      cases hpure
      exact insertRows_sealed hhead columns (rows_sealed h.toWeaves hdata)
    · rename_i id
      obtain ⟨data, hdata, hpure⟩ := except_bind_ok.mp hw
      cases hpure
      exact insertRows_sealed hhead columns (h.rows id data hdata)
    · rename_i query
      obtain ⟨q, hq, hpure⟩ := except_bind_ok.mp hw
      cases hpure
      exact hhead.join (by decide) (query.woven_written h.toWeaves hq).sealed

theorem mergeInsert_sealed (h : holes.Seals) {insert : Option MergeInsert} {v w : List Lexeme}
    (hv : Sealed v) (hw : mergeInsertWritten holes insert = .ok w) : Sealed (v ++ w) := by
  unfold mergeInsertWritten at hw
  split at hw
  · cases hw
    exact (List.append_nil v).symm ▸ hv
  · rename_i insert
    split at hw
    · cases hw
      exact hv.join (by decide) (.singleton _)
    · obtain ⟨values, hvalues, hpure⟩ := except_bind_ok.mp hw
      cases hpure
      have hvalues : Sealed (commaed values) :=
        .commaed fun w hw => (exprs_woven h.toWeaves insert.values hvalues w hw).sealed
      have hcolumns : Sealed (.word " (" :: namesWritten insert.columns) :=
        (Sealed.namesWritten insert.columns).word_cons
      have hlists : Sealed (_ ++ .word ") VALUES (" :: commaed values) := hcolumns.join (by decide) hvalues
      exact hv.join (by decide) (hlists.append_word (by decide))

theorem output_sealed (h : holes.Seals) {output : Option OutputInto} {v w : List Lexeme}
    (hv : Sealed v) (hw : outputWritten holes output = .ok w) : Sealed (v ++ w) := by
  unfold outputWritten at hw
  split at hw
  · cases hw
    exact (List.append_nil v).symm ▸ hv
  · rename_i output
    obtain ⟨exprs, hexprs, hpure⟩ := except_bind_ok.mp hw
    cases hpure
    have hexprs : Sealed (commaed exprs) :=
      .commaed fun w hw => (exprs_woven h.toWeaves output.exprs hexprs w hw).sealed
    have hinto : Sealed (.atName output.into :: .word " (" :: namesWritten output.columns) :=
      .cons rfl (Sealed.namesWritten output.columns).word_cons
    have hlists : Sealed (commaed exprs ++ .word " INTO " :: .atName output.into :: .word " (" ::
        namesWritten output.columns) := hexprs.join (by decide) hinto
    exact hv.join (by decide) (hlists.append_word (by decide))

theorem Merge.sealed_written (h : holes.Seals) {m : Merge} {w : List Lexeme}
    (hw : mergeWritten holes m = .ok w) : Sealed w := by
  simp only [mergeWritten, except_bind_ok] at hw
  obtain ⟨target, htarget, source, hsource, condition, hcondition, assignments, hassignments, insert,
    hinsert, output, houtput, hpure⟩ := hw
  cases hpure
  have hinto : Sealed (.word "MERGE INTO " :: target) :=
    (m.target.woven_written h.toWeaves htarget).sealed.word_cons
  have husing : Sealed (_ ++ .word " USING " :: source) :=
    hinto.join (by decide) (m.source.woven_written h.toWeaves hsource).sealed
  have hmatched : Sealed (_ ++ .word " ON " :: condition) :=
    husing.join (by decide) (m.condition.woven_written h.toWeaves hcondition).sealed
  refine output_sealed h (mergeInsert_sealed h ?_ hinsert) houtput
  split
  · exact (List.append_nil _).symm ▸ hmatched
  · exact hmatched.join (by decide) (.commaed (assignments_sealed h hassignments))

theorem Update.sealed_written (h : holes.Seals) {u : Update} {w : List Lexeme}
    (hw : updateWritten holes u = .ok w) : Sealed w := by
  unfold updateWritten at hw
  obtain ⟨assignments, hassignments, hw⟩ := except_bind_ok.mp hw
  split at hw
  · cases hw
  · obtain ⟨source, hsource, hw⟩ := except_bind_ok.mp hw
    obtain ⟨filter, hfilter, hpure⟩ := except_bind_ok.mp hw
    cases hpure
    have hset : Sealed (.word "UPDATE " :: .name u.target :: .word " SET " :: commaed assignments) :=
      .join (v := [.word "UPDATE ", .name u.target]) (by decide) (.word_cons (.singleton _))
        (.commaed (assignments_sealed h hassignments))
    have hfrom : Sealed (_ ++ clause " FROM " source) := hset.append_clause (by decide)
      fun w hw => (source_woven h.toWeaves u.source hsource w hw).sealed
    exact hfrom.append_clause (by decide)
      fun w hw => (optional_woven h.toWeaves u.filter hfilter w hw).sealed

theorem columnDef_sealed (c : ColumnDef) : Sealed (columnDefWritten c) :=
  .join (v := [.name c.name]) (by decide) (.singleton _) (.word_cons (.singleton _))

theorem delete_sealed {source : Factor} {s : List Lexeme} (hs : Sealed s) :
    Sealed (deleteHead source ++ s) := by
  unfold deleteHead
  split
  · rename_i name aliasName
    exact .join (v := [.word "DELETE ", .name aliasName]) (by decide) (.word_cons (.singleton _)) hs
  · exact hs.word_cons

theorem Statement.sealed_written (h : holes.Seals) {st : Statement} {w : List Lexeme}
    (hw : st.written holes = .ok w) : Sealed w := by
  cases st with
  | declare name columns =>
    cases hw
    have hcolumns : ∀ w ∈ columns.map columnDefWritten, Sealed w := by
      rw [List.forall_mem_map]
      exact fun c _ => columnDef_sealed c
    have htable : Sealed (.word "DECLARE " :: .atName name :: .word " TABLE (" ::
        commaed (columns.map columnDefWritten)) :=
      .word_cons (.cons rfl (.word_cons (.commaed hcolumns)))
    exact htable.append_word (by decide)
  | delete source filter =>
    simp only [Statement.written, except_bind_ok] at hw
    obtain ⟨s, hs, f, hf, hpure⟩ := hw
    cases hpure
    exact (delete_sealed (source.woven_written h.toWeaves hs).sealed).append_clause (by decide)
      fun w hw => (optional_woven h.toWeaves filter hf w hw).sealed
  | insert target columns source => exact insert_sealed h hw
  | merge m => exact Merge.sealed_written h hw
  | query q => exact (q.woven_written h.toWeaves hw).sealed
  | update u => exact Update.sealed_written h hw

/-- In the text of a batch each quoted token is followed by a word that does not start with a quote. -/
theorem Batch.sealed_written {batch : Batch} {subs : Substitution} {w : List Lexeme}
    (hw : batch.written subs = .ok w) : Sealed w := by
  obtain ⟨statements, hstatements, hpure⟩ := except_bind_ok.mp hw
  cases hpure
  refine (Sealed.separated (by decide) fun w hmem => ?_).append_word (by decide)
  obtain ⟨st, _, hst⟩ := mem_of_mapM_ok hstatements hmem
  exact st.sealed_written (HolePrinter.seals_nested subs subs.size) hst

end Statements

/-- Quoted text does not break out. What is written for an identifier or a string literal is read back
whole if no quote of its kind follows, and leaves what follows. In the text of a batch none does, so every
identifier and literal of it is read back whole where it stands. -/
theorem quoted_read_whole :
    (∀ (s : String) (t : List Char), t.head? ≠ some '"' →
      readToken ((Lexeme.name s).chars ++ t) = some (.name s, t)) ∧
    (∀ (s : String) (t : List Char), t.head? ≠ some '\'' →
      readToken ((Lexeme.literal s).chars ++ t) = some (.literal s, t)) ∧
    ∀ (batch : Batch) (subs : Substitution) (text : String), batch.render subs = .ok text →
      ∃ lexemes, batch.written subs = .ok lexemes ∧ text = textOf lexemes ∧
        ∀ before l after, lexemes = before ++ l :: after →
          (∀ s, l = .name s → (textOf after).toList.head? ≠ some '"' ∧
            readToken (textOf (l :: after)).toList = some (l, (textOf after).toList)) ∧
          (∀ s, l = .literal s → (textOf after).toList.head? ≠ some '\'' ∧
            readToken (textOf (l :: after)).toList = some (l, (textOf after).toList)) := by
  refine ⟨fun s t => readToken_name s, fun s t => readToken_literal s, ?_⟩
  intro batch subs text htext
  obtain ⟨lexemes, hlexemes, rfl⟩ := except_map_ok.mp htext
  refine ⟨lexemes, hlexemes, rfl, ?_⟩
  rintro before l after rfl
  have hsealed := Batch.sealed_written hlexemes
  have hchars : (textOf (l :: after)).toList = l.chars ++ (textOf after).toList := by
    simp [textOf]
  have hafter : (textOf after).toList = after.flatMap Lexeme.chars := String.toList_ofList
  constructor
  · rintro s rfl
    have hhead : (textOf after).toList.head? ≠ some '"' := hafter ▸ hsealed.head?_ne rfl (Or.inl rfl)
    exact ⟨hhead, hchars ▸ readToken_name s hhead⟩
  · rintro s rfl
    have hhead : (textOf after).toList.head? ≠ some '\'' := hafter ▸ hsealed.head?_ne rfl (Or.inr rfl)
    exact ⟨hhead, hchars ▸ readToken_literal s hhead⟩

/-- Deletes the pages of a title; the names and the title hold quotes of both kinds. -/
def quotedPages : Batch :=
  [.delete (.table "Pa\"ge" none) (some (.eq (.columnOf "Pa\"ge" "Title'") (.text "'; \"--")))]

theorem quoted_read_whole_pages :
    readToken ((Lexeme.name "a\"\"").chars ++ [';']) = some (.name "a\"\"", [';']) ∧
    readToken ((Lexeme.literal "'; --").chars ++ [';']) = some (.literal "'; --", [';']) ∧
    let text := "DELETE FROM \"Pa\"\"ge\" WHERE \"Pa\"\"ge\".\"Title'\" = N'''; \"--';"
    quotedPages.render .empty = .ok text ∧
      ∃ lexemes, quotedPages.written .empty = .ok lexemes ∧ text = textOf lexemes ∧
        ∀ before l after, lexemes = before ++ l :: after →
          (∀ s, l = .name s → (textOf after).toList.head? ≠ some '"' ∧
            readToken (textOf (l :: after)).toList = some (l, (textOf after).toList)) ∧
          (∀ s, l = .literal s → (textOf after).toList.head? ≠ some '\'' ∧
            readToken (textOf (l :: after)).toList = some (l, (textOf after).toList)) :=
  ⟨quoted_read_whole.1 _ _ (by decide), quoted_read_whole.2.1 _ _ (by decide), rfl,
    quoted_read_whole.2.2 quotedPages .empty _ rfl⟩

end ShapeSql.Sql
