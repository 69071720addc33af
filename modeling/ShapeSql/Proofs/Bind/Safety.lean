import ShapeSql.Proofs.Bind.Binding
import ShapeSql.Proofs.Compiler
import ShapeSql.Proofs.Plan.Ordering

/-!
Binding a compiled statement never ends in a fault. What planning keeps true of rules, parameters and
batch is all that binding asks of them: every hole is bound once and for its place, expanding holes
ends, no update is left without an assignment, and no derived parameter has the name of another one.
-/

namespace ShapeSql

open Sql

/-- A leaf comes to parameters alone once the holes are filled: every hole met on the way is bound to
a fragment for its place, no part is broken, and the expansion is finite. -/
inductive Sql.Leaf.Resolves (subs : Substitution) : Leaf → Prop where
  | param (name : String) : Resolves subs (.param name)
  | hole {id : HoleId} {fragment : Fragment} : subs.find? id = some fragment →
    (∀ l ∈ fragment.leaves, Resolves subs l) → Resolves subs (.hole fragment.place id)

theorem Sql.Substitution.Layered.resolves {subs : Substitution} (h : subs.Layered) (bound : Nat) :
    ∀ id fragment, subs.find? id = some fragment → id.index < bound →
      (Leaf.hole fragment.place id).Resolves subs := by
  -- Holes inside a fragment have smaller numbers, so the numbers bound the depth of the expansion.
  induction bound with
  | zero =>
    intro id fragment _ hlt
    omega
  | succ bound ih =>
    intro id fragment hfound hlt
    refine .hole hfound ?_
    intro l hl
    have hbelow := h.below id fragment hfound l hl
    cases l with
    | param name => exact .param name
    | broken fault => exact hbelow.elim
    | hole place inner =>
      obtain ⟨hinner, other, hother, rfl⟩ := hbelow
      exact ih inner other hother (by omega)

namespace Binding

variable {s : Schema} {args : Value}

/-- A loop that inserts a value under the name of each parameter, and the names it ends with. -/
theorem names_of_foldlM {step : Params → Param → Except Error Params}
    (hstep : ∀ before p after, step before p = .ok after →
      ∃ value, after = Record.insert before p.name value)
    {ps : List Param} {start bound : Params} (h : ps.foldlM step start = .ok bound) :
    (start.names.Nodup → bound.names.Nodup) ∧
      ∀ name, name ∈ bound.names ↔ name ∈ start.names ∨ ∃ p ∈ ps, p.name = name := by
  induction ps generalizing start with
  | nil =>
    cases h
    exact ⟨id, fun name => by simp⟩
  | cons p ps ih =>
    rw [List.foldlM_cons] at h
    obtain ⟨next, hnext, h⟩ := except_bind_ok.mp h
    obtain ⟨value, rfl⟩ := hstep start p next hnext
    obtain ⟨hnodup, hnames⟩ := ih h
    constructor
    · intro hstart
      apply hnodup
      rw [Record.names_insert]
      exact nodup_withName hstart p.name
    · intro name
      rw [hnames, Record.names_insert, mem_withName, List.exists_mem_cons_iff, or_assoc, eq_comm]

/-- The names of the declared parameters that are left. -/
theorem names_declared {b : Binding} {params : List Param} {bound : Params}
    (h : b.declared params args = .ok bound) :
    bound.names.Nodup ∧ ∀ name, name ∈ bound.names ↔ (∃ p ∈ params, p.name = name) ∧
      name ∉ b.removed := by
  obtain ⟨hnodup, hnames⟩ := names_of_foldlM (fun before p after hafter => by
    obtain ⟨value, _, hpure⟩ := except_bind_ok.mp hafter
    cases hpure
    exact ⟨value, rfl⟩) h
  refine ⟨hnodup List.nodup_nil, ?_⟩
  intro name
  rw [hnames]
  constructor
  · rintro (hnil | ⟨p, hp, rfl⟩)
    · cases hnil
    · obtain ⟨hmem, hkept⟩ := List.mem_filter.mp hp
      exact ⟨⟨p, hmem, rfl⟩, by simpa using hkept⟩
  · rintro ⟨⟨p, hp, rfl⟩, hkept⟩
    exact Or.inr ⟨p, List.mem_filter.mpr ⟨hp, by simpa using hkept⟩, rfl⟩

/-- Parameters under new names follow those that are there. -/
theorem append_ok {added : List (String × Value)} {bound : Params}
    (hdistinct : (added.map Prod.fst).Nodup) (hnew : ∀ name ∈ added.map Prod.fst, name ∉ bound.names) :
    append bound added = .ok (bound ++ added) := by
  induction added generalizing bound with
  | nil =>
    rw [List.append_nil]
    rfl
  | cons p added ih =>
    obtain ⟨name, value⟩ := p
    rw [List.map_cons, List.nodup_cons] at hdistinct
    have hfree : ¬(bound.getExact? name).isSome = true := by
      rw [Record.getExact?_isSome_iff]
      exact hnew name List.mem_cons_self
    rw [append, if_neg hfree, ih hdistinct.2, List.append_assoc]
    · rfl
    · intro other hother hmem
      rw [Record.names, List.map_append, List.mem_append] at hmem
      rcases hmem with hold | hlast
      · exact hnew other (List.mem_cons_of_mem _ hother) hold
      · rw [List.map_singleton, List.mem_singleton] at hlast
        rw [hlast] at hother
        exact hdistinct.1 hother

/-- No rule brings a parameter under a declared name. -/
theorem Binds.added_aside {plan : Plan} (hplan : plan.Sound) {b : Binding}
    (hb : b.Binds s args plan.rules) {name : String} (hname : name ∈ b.added.names) :
    ∀ p ∈ plan.params, p.name ≠ name := by
  obtain ⟨rule, hrule, f, hf, hadded⟩ := (hb.added name).mp hname
  have hserves := HoleRule.fill_serves (hplan.fits rule hrule) hf
  exact hplan.aside rule hrule name (hserves.owned name hadded)

end Binding

namespace Plan

variable {s : Schema} {args : Value} {plan : Plan}

/-- A sound plan refuses a value, or yields what its rules bound and the parameters: those declared
and left, followed by those brought. -/
theorem substitution_cases (s : Schema) (args : Value) (hplan : plan.Sound) :
    (∃ e, plan.substitution s args = .error (.refused e)) ∨
      ∃ b declared, Binding.Binds s args plan.rules b ∧ b.assigned ≠ some false ∧
        b.declared plan.params args = .ok declared ∧
        (∀ name ∈ b.added.names, name ∉ declared.names) ∧
        plan.substitution s args = .ok (b.subs, declared ++ b.added) := by
  unfold substitution
  rcases Binding.ofRules_binds s args hplan.layered hplan.fits with
    ⟨e, he⟩ | ⟨b, hb, hbinds⟩
  · left
    refine ⟨e, ?_⟩
    rw [he]
    rfl
  · rw [hb]
    by_cases hassigned : b.assigned = some false
    · left
      refine ⟨.badArgument .nothingAssigned, ?_⟩
      show (if b.assigned = some false then _ else _) = _
      rw [if_pos hassigned]
      rfl
    · cases hdeclared : b.declared plan.params args with
      | error e =>
        left
        refine ⟨e, ?_⟩
        show (if b.assigned = some false then _ else _) = _
        rw [if_neg hassigned, hdeclared]
        rfl
      | ok declared =>
        right
        have hnew : ∀ name ∈ b.added.names, name ∉ declared.names := by
          intro name hname hmem
          obtain ⟨⟨p, hp, hsame⟩, _⟩ := ((Binding.names_declared hdeclared).2 name).mp hmem
          exact hbinds.added_aside hplan hname p hp hsame
        refine ⟨b, declared, hbinds, hassigned, hdeclared, hnew, ?_⟩
        show (if b.assigned = some false then _ else _) = _
        rw [if_neg hassigned, hdeclared]
        show (faulty (Binding.append declared b.added) >>= _) = _
        rw [Binding.append_ok hbinds.distinct hnew]
        rfl

/-- What a sound plan yields is what its rules bound. -/
theorem binds_of_substitution {subs : Substitution} {params : Params} (hplan : plan.Sound)
    (h : plan.substitution s args = .ok (subs, params)) :
    ∃ b declared, Binding.Binds s args plan.rules b ∧ b.assigned ≠ some false ∧
      b.declared plan.params args = .ok declared ∧
      (∀ name ∈ b.added.names, name ∉ declared.names) ∧
      subs = b.subs ∧ params = declared ++ b.added := by
  rcases substitution_cases s args hplan with ⟨e, he⟩ | ⟨b, declared, hb, hassigned, hdeclared, hnew, hok⟩
  · cases he.symm.trans h
  · obtain ⟨hsubs, hparams⟩ := Prod.mk.inj (Except.ok.inj (h.symm.trans hok))
    exact ⟨b, declared, hb, hassigned, hdeclared, hnew, hsubs, hparams⟩

/-- Every leaf of the batch of a sound plan resolves. -/
theorem Sound.resolves (hplan : plan.Sound) {b : Binding} (hb : b.Binds s args plan.rules) :
    ∀ l ∈ plan.batch.leaves, l.Resolves b.subs := by
  intro l hl
  have hsettled := hplan.settled l hl
  cases l with
  | param name => exact .param name
  | broken fault => exact hsettled.elim
  | hole place id =>
    obtain ⟨rule, hrule, rfl, rfl⟩ := hsettled
    obtain ⟨f, hf, hfound⟩ := hb.filled rule hrule
    have hserves := HoleRule.fill_serves (hplan.fits rule hrule) hf
    rw [← hserves.place]
    exact hb.layered.resolves (rule.hole.index + 1) _ _ hfound (by omega)

theorem Sound.render_ok (hplan : plan.Sound)
    (hkeeps : ∀ st ∈ plan.batch, st.KeepsAssignment plan.rules) {b : Binding}
    (hb : b.Binds s args plan.rules) (hassigned : b.assigned ≠ some false) :
    ∃ sql, plan.batch.render b.subs = .ok sql := by
  apply Batch.render_ok
  · intro l hl
    have hresolves := hplan.resolves hb l hl
    cases hresolves with
    | param name => trivial
    | hole hfound _ => exact HolePrinter.ofSubstitution_writes hb.layered hfound
  · intro st hst
    have hst := hkeeps st hst
    cases st with
    | declare _ _ | delete _ _ | insert _ _ _ | merge _ | query _ => trivial
    | update u =>
      rcases hst with ⟨column, value, hset⟩ | ⟨⟨rule, hrule, hplace⟩, hholds⟩
      · exact ⟨_, hset, trivial⟩
      · have htrue : b.assigned = some true := by
          cases hseen : b.assigned with
          | none => exact absurd hplace (hb.unassigned hseen rule hrule)
          | some seen =>
            cases seen with
            | false => exact absurd hseen hassigned
            | true => rfl
        obtain ⟨kept, hkept, f, hf, hkeptPlace, first, rest, hfragment⟩ := hb.assigned htrue
        obtain ⟨g, hg, hfound⟩ := hb.filled kept hkept
        rw [hf] at hg
        cases hg
        rw [hfragment] at hfound
        exact ⟨_, hholds kept hkept hkeptPlace, HolePrinter.ofSubstitution_assigns hb.layered hfound⟩

/-- Binding a sound plan whose updates keep their assignments yields a statement or refuses. -/
theorem Sound.bind_cases (s : Schema) (args : Value) (hplan : plan.Sound)
    (hkeeps : ∀ st ∈ plan.batch, st.KeepsAssignment plan.rules) :
    (∃ e, plan.bind s args = .error (.refused e)) ∨ ∃ bound, plan.bind s args = .ok bound := by
  unfold Plan.bind
  split
  · exact Or.inl ⟨_, rfl⟩
  · rcases substitution_cases s args hplan with
      ⟨e, he⟩ | ⟨b, declared, hb, hassigned, _, _, hsubs⟩
    · left
      refine ⟨e, ?_⟩
      rw [he]
      rfl
    · right
      obtain ⟨sql, hsql⟩ := hplan.render_ok hkeeps hb hassigned
      refine ⟨⟨sql, declared ++ b.added⟩, ?_⟩
      rw [hsubs]
      show (faulty (plan.batch.render b.subs) >>= _) = _
      rw [hsql]
      rfl

end Plan

theorem Layered.nodup_holes {rules : List HoleRule} (h : Layered rules) :
    (rules.map HoleRule.hole).Nodup := by
  induction h with
  | nil => exact List.nodup_nil
  | @snoc rules rule hlayered hnumber _ ih =>
    rw [List.map_append, List.map_singleton]
    refine List.nodup_append.mpr ⟨ih, List.nodup_singleton _, ?_⟩
    intro hole hhole last hlast
    obtain ⟨other, hother, rfl⟩ := List.mem_map.mp hhole
    rw [List.mem_singleton.mp hlast, hnumber]
    intro heq
    have hlt : other.hole.index < rules.length := hlayered.index_lt other hother
    rw [heq] at hlt
    exact absurd hlt (Nat.lt_irrefl _)

namespace Compiler

variable {c : Compiler} {spec : QuerySpec} {compiled : Compiled}

/-- Whatever is compiled over a schema that was built can be bound to any value: binding yields a
statement or refuses the value. When the values are accepted, no hole is bound twice, no two
parameters have one name, everything left open by the batch resolves, and it is written out. Rows
have a name for each column, and orderings choose from tables that the schema has. -/
theorem bind_safe {declarations : List TableDeclaration} {schema : Schema} {setup : CompilerSetup}
    (hschema : Schema.build declarations = .ok schema) (hsetup : setup.schema = some schema)
    (hbuild : setup.build = .ok c) (hcompile : c.compile spec = .ok compiled) (args : Value) :
    ((∃ bound, compiled.bind args = .ok bound) ∨ ∃ e, compiled.bind args = .error (.refused e)) ∧
    (∀ subs params, compiled.plan.substitution compiled.schema args = .ok (subs, params) →
      (subs.fragments.map Prod.fst).Nodup ∧ params.names.Nodup ∧
        (∀ l ∈ compiled.plan.batch.leaves, l.Resolves subs) ∧
        ∃ sql, compiled.plan.batch.render subs = .ok sql) ∧
    ∀ rule ∈ compiled.plan.rules, rule.action.Fits ∧ rule.action.Placed compiled.schema := by
  obtain ⟨hsame, hplan⟩ := ofSpec_of_compile hcompile
  have hs : c.resolver.schema.Sound := by
    show c.schema.Sound
    rw [CompilerSetup.schema_of_build hsetup hbuild]
    exact Schema.build_sound hschema
  have hsound := Plan.ofSpec_sound hplan
  have hkeeps := Plan.ofSpec_keepsAssignment hs hplan
  refine ⟨?_, ?_, ?_⟩
  · exact (Plan.Sound.bind_cases compiled.schema args hsound hkeeps).symm
  · intro subs params hsubs
    obtain ⟨b, declared, hb, hassigned, hdeclared, hnew, rfl, rfl⟩ :=
      Plan.binds_of_substitution hsound hsubs
    refine ⟨?_, ?_, hsound.resolves hb, hsound.render_ok hkeeps hb hassigned⟩
    · rw [hb.holes]
      exact hsound.layered.nodup_holes
    · rw [Record.names, List.map_append]
      refine List.nodup_append.mpr ⟨(Binding.names_declared hdeclared).1, hb.distinct, ?_⟩
      rintro name hname _ hadded rfl
      exact hnew name hadded hname
  · intro rule hrule
    rw [hsame]
    exact ⟨hsound.fits rule hrule, Plan.ofSpec_placed hs hplan rule hrule⟩

end Compiler

/-- A table of people. -/
def personDeclaration : TableDeclaration where
  name := "Person"
  kind := .table
  columns := [⟨"Id", .integer 4, false, true, false⟩, ⟨"Name", .text, true, false, false⟩]
  foreignKeys := []

/-- The schema of that table alone. -/
def personSchema : Schema where
  tables := [{
    id := ⟨0⟩
    name := "Person"
    kind := .table
    columns := [⟨⟨⟨0⟩, 0⟩, "Id", .integer 4, false, true, false⟩,
      ⟨⟨⟨0⟩, 1⟩, "Name", .text, true, false, false⟩]
    primaryKey := [⟨⟨0⟩, 0⟩]
    foreignKeys := [] }]

/-- A compiler that matches names as they are written. -/
def personSetup : CompilerSetup where
  schema := some personSchema
  options := default
  inflector := some .exact

/-- Renames the people of these numbers, if there is a name. -/
def renamePeople : QuerySpec where
  operation := .update
  table := some "Person"
  arguments := .node FieldTree.argumentRoot [
    .leaf (FieldTree.place ⟨"Name", .text, true,
      ⟨none, some .ifNull, false, none, none, none, none, false, false, none, false, true⟩⟩
      ⟨["Name"]⟩ none),
    .leaf (FieldTree.place ⟨"Id", .list .i32, true, default⟩ ⟨["Id"]⟩ none)]
  output := none
  outputKind := .nothing

/-- A name, and numbers with a null among them. -/
def renameArguments : Value :=
  .record [("Name", .text "Ann"), ("Id", .list [.i32 7, .null])]

/-- The update is bound to these arguments. -/
theorem bind_safe_renamePeople :
    ∃ c compiled bound, Schema.build [personDeclaration] = .ok personSchema ∧
      personSetup.schema = some personSchema ∧ personSetup.build = .ok c ∧
      c.compile renamePeople = .ok compiled ∧ compiled.bind renameArguments = .ok bound ∧
      bound.params.names = ["Name", "Id_0"] ∧
      (∀ subs params,
        compiled.plan.substitution compiled.schema renameArguments = .ok (subs, params) →
          (subs.fragments.map Prod.fst).Nodup ∧ params.names.Nodup ∧
            (∀ l ∈ compiled.plan.batch.leaves, l.Resolves subs) ∧
            ∃ sql, compiled.plan.batch.render subs = .ok sql) ∧
      ∀ rule ∈ compiled.plan.rules, rule.action.Fits ∧ rule.action.Placed compiled.schema := by
  have hschema : Schema.build [personDeclaration] = .ok personSchema := rfl
  have hbuild : personSetup.build = .ok ⟨personSchema, default, .exact⟩ := rfl
  obtain ⟨compiled, hcompile⟩ : ∃ compiled,
      (⟨personSchema, default, .exact⟩ : Compiler).compile renamePeople = .ok compiled := ⟨_, rfl⟩
  have hsafe := Compiler.bind_safe hschema rfl hbuild hcompile renameArguments
  cases hcompile
  exact ⟨_, _, _, hschema, rfl, hbuild, rfl, rfl, rfl, hsafe.2⟩

end ShapeSql
