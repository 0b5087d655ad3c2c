import SJava.Proofs.Locals
import SJava.Proofs.Registration

/-!
# Final variables

Only assignments are checked for final targets, but declarations write too. A declaration writes
only names that it declares (`Line.written_subset`), and these stand for its own variables. So a
final variable is written by nothing but the declaration that makes it, if there is one
(`Recorded.declares_of_writes_final`), which has to give every name its value
(`Line.written_final`).
-/

namespace SJava

/-- How many of the names that a line gives values to stand for a variable. -/
def Line.timesAssigned (line : Line) (vars : VariableTable) (v : Variable) : Nat :=
  line.assignments.countP fun pair => vars.lookup? pair.1.name line.scope == some v

/-! ## What declarations write -/

namespace LineKind

variable {kind : LineKind} {role reached : Role} {first : Token} {tokens : List Token}

theorem justBefore_equals_sublist (assigns : kind.assigns = true)
    (fits : role.fits first.kind = true)
    (follows : kind.follow? role (tokens.map Token.kind) = some reached) :
    ((justBefore .equals ((role, first) :: kind.plays role tokens)).map Prod.snd).Sublist
      (playing .name ((role, first) :: kind.plays role tokens)) := by
  induction tokens generalizing role first with
  | nil => exact List.nil_sublist _
  | cons next tokens ih =>
      obtain ⟨played, step, follows⟩ := Option.bind_eq_some_iff.mp follows
      have rest := ih (next?_some step).1 follows
      rw [plays_cons step, justBefore_cons_cons, playing_cons]
      by_cases sign : played = .equals
      · have named : role = .name := by
          rcases assigning_step assigns fits step with ⟨-, -, rfl⟩ | ⟨-, -, before⟩
          · cases sign
          · exact before sign
        rw [if_pos sign, if_pos named, List.map_cons]
        exact rest.cons_cons _
      · rw [if_neg sign]
        split
        · exact rest.cons _
        · exact rest

theorem final_step {second : TokenKind} {played : Role}
    (step : Role.inDeclaration true role second = some played) :
    played = .equals ↔ role = .name := by
  revert step
  fun_cases Role.inDeclaration true role second <;> intro step <;> cases step <;> simp_all

theorem justBefore_equals_final
    (follows : finalDeclaration.follow? role (tokens.map Token.kind) = some reached)
    (ended : reached ≠ .name) :
    (justBefore .equals ((role, first) :: finalDeclaration.plays role tokens)).map Prod.snd =
      playing .name ((role, first) :: finalDeclaration.plays role tokens) := by
  induction tokens generalizing role first with
  | nil =>
      cases follows
      rw [plays_nil, playing_cons, if_neg ended]
      rfl
  | cons next tokens ih =>
      obtain ⟨played, step, follows⟩ := Option.bind_eq_some_iff.mp follows
      rw [plays_cons step, justBefore_cons_cons, playing_cons, ← ih follows]
      by_cases named : role = .name
      · rw [if_pos named, if_pos ((final_step step).mpr named), List.map_cons]
      · rw [if_neg named, if_neg (mt (final_step step).mp named)]

end LineKind

namespace Line

variable {line : Line} {vars : VariableTable} {v : Variable} {name : String}

theorem written_subset (formed : line.WellFormed)
    (kind : line.kind = .declaration ∨ line.kind = .finalDeclaration)
    (written : name ∈ line.written) : name ∈ line.newNames := by
  obtain ⟨first, rest, shape, start⟩ := formed.begun
  have assigns : line.kind.assigns = true := by rcases kind with kind | kind <;> rw [kind] <;> rfl
  obtain ⟨reached, follows, -⟩ :=
    follows_of_form shape start formed.form (not_comment_of_assigns assigns)
  have sublist := LineKind.justBefore_equals_sublist assigns (LineKind.opening_fits start) follows
  rw [← roles_eq shape] at sublist
  rw [newNames_of_declares (by tauto)]
  rw [written_played shape start formed.form, if_pos assigns] at written
  obtain ⟨pair, before, rfl⟩ := List.mem_map.mp written
  exact List.mem_map_of_mem (sublist.mem (List.mem_map_of_mem before))

theorem written_final (formed : line.WellFormed) (kind : line.kind = .finalDeclaration) :
    line.written = line.newNames := by
  obtain ⟨first, rest, shape, start⟩ := formed.begun
  obtain ⟨reached, follows, done⟩ := follows_of_form shape start formed.form (by simp [kind])
  have ends : line.kind.terminator? = some .semicolon := by rw [kind]; rfl
  have ended : reached ≠ .name := by
    rintro rfl
    cases (LineKind.nil_mem_completions ends).mp done
  have assigns : line.kind.assigns = true := by rw [kind]; rfl
  rw [written_played shape start formed.form, if_pos assigns, newNames_of_declares (by simp [kind]),
    roles_eq shape]
  rw [kind] at follows ⊢
  rw [← LineKind.justBefore_equals_final follows ended, List.map_map]
  rfl

/-- The names that a line writes are those that it assigns by place. -/
theorem timesAssigned_eq (formed : line.WellFormed) : line.timesAssigned vars v =
    line.written.countP fun name => vars.lookup? name line.scope == some v := by
  rw [timesAssigned, written_eq formed, List.countP_map]
  rfl

theorem timesAssigned_eq_zero_iff :
    line.timesAssigned vars v = 0 ↔ ¬line.Assigns vars v := by
  simp [timesAssigned, Assigns]

end Line

/-! ## The records of a line -/

namespace VariableTable

variable {table : VariableTable} {name : String} {scope : Scope} {v : Variable}

theorem lookup?_own (found : table.find? name scope = some v) :
    table.lookup? name scope = some v := by
  obtain ⟨path⟩ := scope
  have inner : ∃ outer, Scope.enclosing ⟨path⟩ = ⟨path⟩ :: outer := by
    cases path <;> exact ⟨_, rfl⟩
  obtain ⟨outer, enclosing⟩ := inner
  rw [lookup?, enclosing, List.findSome?_cons, found]

theorem find?_given {writes : List Write} :
    (table.given writes).find? name scope = (table.find? name scope).map (table.valued writes) :=
  find?_map fun _ => ⟨rfl, rfl⟩

theorem keys_given {writes : List Write} :
    (table.given writes).records.map Variable.key = table.records.map Variable.key := by
  rw [given, map, List.map_map]
  rfl

theorem find?_of_mem (keys : (table.records.map Variable.key).Nodup) (member : v ∈ table.records) :
    table.find? v.name v.scope = some v := by
  cases found : table.find? v.name v.scope with
  | none => exact absurd (List.mem_map_of_mem member) (find?_eq_none_iff.mp found)
  | some other =>
      obtain ⟨known, name, scope⟩ := find?_some found
      rw [List.inj_on_of_nodup_map keys known member (Prod.ext name scope)]

end VariableTable

namespace Line

variable {line : Line} {v : Variable} {name : String}

theorem key_of_newVariable (formed : line.WellFormed) (new : v ∈ line.newVariables) :
    v.name ∈ line.newNames ∧ v.scope = line.home := by
  have member := List.mem_map_of_mem (f := Variable.key) new
  rw [keys_newVariables formed] at member
  obtain ⟨name, named, same⟩ := List.mem_map.mp member
  obtain ⟨rfl, home⟩ := Prod.mk.inj same
  exact ⟨named, home.symm⟩

theorem isFinal_of_declared (member : v ∈ line.declared) :
    v.isFinal = (line.kind == .finalDeclaration) := by
  rw [declared] at member
  split at member
  · cases member
  · split at member
    · cases member
    · obtain ⟨name, -, rfl⟩ := List.mem_map.mp member
      rfl

theorem newVariable_of_name (formed : line.WellFormed) (named : name ∈ line.newNames) :
    ∃ v ∈ line.newVariables, v.name = name ∧ v.scope = line.home := by
  have member := List.mem_map_of_mem (f := (·, line.home)) named
  rw [← keys_newVariables formed] at member
  obtain ⟨v, new, same⟩ := List.mem_map.mp member
  exact ⟨v, new, congrArg Prod.fst same, congrArg Prod.snd same⟩

end Line

theorem place_of_mem_flatMap {α β : Type} {f : α → List β} {xs : List α} {x : β} {first second : α}
    {i j : Nat} (nodup : (xs.flatMap f).Nodup) (found : xs[i]? = some first)
    (foundSecond : xs[j]? = some second) (member : x ∈ f first) (memberSecond : x ∈ f second) :
    i = j := by
  have apart := List.pairwise_iff_getElem.mp (List.nodup_flatMap.mp nodup).2
  obtain ⟨inside, rfl⟩ := List.getElem?_eq_some_iff.mp found
  obtain ⟨insideSecond, rfl⟩ := List.getElem?_eq_some_iff.mp foundSecond
  rcases Nat.lt_trichotomy i j with order | equal | order
  · exact absurd memberSecond (apart i j inside insideSecond order member)
  · exact equal
  · exact absurd member (apart j i insideSecond inside order memberSecond)

namespace Recorded

variable {registry : Registry} {lines : List Line} {line other : Line} {v : Variable}
  {name : String} {place otherPlace : Nat}

theorem find?_newVariable (h : Recorded registry lines) (member : line ∈ lines)
    (new : v ∈ line.newVariables) : registry.symbols.vars.find? v.name v.scope = some v := by
  apply VariableTable.find?_of_mem h.registered.keys
  rw [h.records]
  exact List.mem_flatMap_of_mem member new

theorem keys_nodup (h : Recorded registry lines) :
    (lines.flatMap fun line => line.newVariables.map Variable.key).Nodup := by
  have keys := h.registered.keys
  rwa [h.records, List.map_flatMap] at keys

theorem newNames_nodup (h : Recorded registry lines) (member : line ∈ lines) :
    line.newNames.Nodup := by
  have keys := (List.nodup_flatMap.mp h.keys_nodup).1 line member
  rw [Line.keys_newVariables (h.wellFormed line member)] at keys
  exact keys.of_map

theorem place_of_key (h : Recorded registry lines) (stored : lines[place]? = some line)
    (storedOther : lines[otherPlace]? = some other) (new : v ∈ line.newVariables)
    (named : v.name ∈ other.newNames) (home : v.scope = other.home) : otherPlace = place := by
  apply place_of_mem_flatMap h.keys_nodup storedOther stored _ (List.mem_map_of_mem new)
  rw [Line.keys_newVariables (h.wellFormed other (List.mem_of_getElem? storedOther))]
  exact List.mem_map.mpr ⟨v.name, named, by rw [← home]; rfl⟩

/-! ## Writes to final variables -/

section Finals

variable {symbols : Symbols} {writes : List Write}

/-- A line that gives a value to a final variable declares it. -/
theorem declares_of_writes_final (h : Recorded registry lines) (rules : symbols.Rules lines)
    (vars : symbols.vars = registry.symbols.vars.given writes) (member : line ∈ lines)
    (assigns : line.Assigns symbols.vars v) (final : v.isFinal = true) :
    v.name ∈ line.newNames ∧ v.scope = line.home := by
  obtain ⟨pair, assigned, visible⟩ := assigns
  have formed := h.wellFormed line member
  have declares : line.kind = .declaration ∨ line.kind = .finalDeclaration := by
    cases kind : line.kind with
    | declaration => exact .inl rfl
    | finalDeclaration => exact .inr rfl
    | assignment =>
        obtain ⟨target, resolves, mutable⟩ := rules.targets line member kind
        obtain ⟨name, value, subject, -, assignments, -⟩ := Line.assignment_places formed kind
        rw [assignments, List.mem_singleton] at assigned
        rw [assigned, ← subject, resolves, Option.some_inj] at visible
        rw [visible, final] at mutable
        cases mutable
    | _ => simp [Line.assignments, kind, LineKind.assigns] at assigned
  have named : pair.1.name ∈ line.newNames := by
    apply Line.written_subset formed declares
    rw [Line.written_eq formed]
    exact List.mem_map_of_mem assigned
  -- The name stands for the variable that the line itself declares.
  have home : line.home = line.scope :=
    Line.home_of_other (by rcases declares with kind | kind <;> simp [kind])
  obtain ⟨own, new, sameName, sameScope⟩ := Line.newVariable_of_name formed named
  have found := VariableTable.lookup?_own (h.find?_newVariable member new)
  rw [sameName, sameScope, home] at found
  rw [vars, VariableTable.lookup?_given, found, Option.map_some, Option.some_inj] at visible
  rw [← visible]
  exact ⟨sameName ▸ named, sameScope⟩

theorem timesAssigned_elsewhere (h : Recorded registry lines) (rules : symbols.Rules lines)
    (vars : symbols.vars = registry.symbols.vars.given writes)
    (stored : lines[place]? = some line) (new : v ∈ line.newVariables) (final : v.isFinal = true)
    (storedOther : lines[otherPlace]? = some other) (elsewhere : otherPlace ≠ place) :
    other.timesAssigned symbols.vars (registry.symbols.vars.valued writes v) = 0 := by
  rw [Line.timesAssigned_eq_zero_iff]
  intro assigns
  obtain ⟨named, home⟩ := h.declares_of_writes_final rules vars (List.mem_of_getElem? storedOther)
    assigns final
  exact elsewhere (h.place_of_key stored storedOther new named home)

theorem timesAssigned_own (h : Recorded registry lines)
    (vars : symbols.vars = registry.symbols.vars.given writes) (member : line ∈ lines)
    (kind : line.kind = .finalDeclaration) (new : v ∈ line.newVariables) :
    line.timesAssigned symbols.vars (registry.symbols.vars.valued writes v) = 1 := by
  have formed := h.wellFormed line member
  obtain ⟨named, -⟩ := Line.key_of_newVariable formed new
  have home : line.home = line.scope := Line.home_of_other (by simp [kind])
  rw [Line.timesAssigned_eq formed, Line.written_final formed kind,
    ← List.count_eq_one_of_mem (h.newNames_nodup member) named, List.count]
  refine List.countP_congr fun name other => ?_
  obtain ⟨own, newOwn, rfl, scope⟩ := Line.newVariable_of_name formed other
  have found := VariableTable.lookup?_own (h.find?_newVariable member newOwn)
  rw [scope, home] at found
  rw [vars, VariableTable.lookup?_given, found, Option.map_some, beq_iff_eq, beq_iff_eq,
    Option.some_inj]
  constructor
  · exact congrArg Variable.name
  · intro same
    have foundOwn := h.find?_newVariable member newOwn
    rw [same, scope, ← (Line.key_of_newVariable formed new).2, h.find?_newVariable member new]
      at foundOwn
    rw [Option.some_inj.mp foundOwn]

theorem initialization_final (h : Recorded registry lines) (rules : symbols.Rules lines)
    (vars : symbols.vars = registry.symbols.vars.given (lines.flatMap Line.writes))
    (stored : lines[place]? = some line) (kind : line.kind = .finalDeclaration)
    (new : v ∈ line.newVariables) (final : v.isFinal = true) :
    (registry.symbols.vars.valued (lines.flatMap Line.writes) v).initialization? =
      some ⟨line.number, line.scope⟩ := by
  have formed {line : Line} (member : line ∈ lines) := h.wellFormed line member
  have member := List.mem_of_getElem? stored
  have resolves := VariableTable.lookup?_own (h.find?_newVariable member new)
  have hit : ∃ write ∈ line.writes, registry.symbols.vars.hits v write = true := by
    rw [← assigns_iff_hits (formed member) resolves, ← vars]
    by_contra never
    have once := h.timesAssigned_own vars member kind new
    rw [Line.timesAssigned_eq_zero_iff.mpr never] at once
    cases once
  obtain ⟨write, written, hits⟩ := hit
  have given : (registry.symbols.vars.firstValue? (lines.flatMap Line.writes) v).isSome = true := by
    rw [VariableTable.firstValue?, Option.isSome_map, List.find?_isSome]
    exact ⟨write, List.mem_flatMap_of_mem member written, hits⟩
  obtain ⟨origin, first⟩ := Option.isSome_iff_exists.mp given
  obtain ⟨other, writer, storedWriter, rfl, ⟨assigning, storedAgain, assigns⟩, -⟩ :=
    firstAssigned_of_firstValue h resolves first
  rw [storedWriter, Option.some_inj] at storedAgain
  rw [← storedAgain, ← vars] at assigns
  obtain ⟨named, home⟩ :=
    h.declares_of_writes_final rules vars (List.mem_of_getElem? storedWriter) assigns final
  cases h.place_of_key stored storedWriter new named home
  rw [stored, Option.some_inj] at storedWriter
  have fresh : v.initialization? = none := by
    rw [Line.newVariables_of_declares (.inr kind)] at new
    exact declared_uninitialized new
  rw [VariableTable.valued, fresh, Option.none_or, first, storedWriter]

end Finals

end Recorded

/-- In an accepted program, each name of a final declaration stands for a record that this line
gives its value, once, and no other line writes. A final parameter has its value from the header,
and no line writes it. -/
theorem final_assigned_once {texts : List String} {program : Program}
    (accepted : verify texts = .ok program) :
    (∀ v ∈ program.symbols.vars.records, program.symbols.vars.find? v.name v.scope = some v) ∧
    (∀ (place : Nat) (line : Line), program.lines[place]? = some line →
      line.kind = .finalDeclaration →
      ∀ name ∈ line.newNames, ∃ v, program.symbols.vars.find? name line.scope = some v ∧
        v.isFinal = true ∧ v.initialization? = some ⟨line.number, line.scope⟩ ∧
        ∀ (other : Nat) (writer : Line), program.lines[other]? = some writer →
          writer.timesAssigned program.symbols.vars v = if other = place then 1 else 0) ∧
    ∀ header ∈ program.lines, header.kind = .methodHeader →
      ∀ name parameters, header.header? = some (name, parameters) →
        ∀ parameter ∈ parameters, parameter.isFinal = true →
          ∃ v, program.symbols.vars.find? parameter.name (header.scope.child (.method name)) =
              some v ∧ v.isFinal = true ∧
            v.initialization? = some ⟨header.number, header.scope.child (.method name)⟩ ∧
            ∀ writer ∈ program.lines, writer.timesAssigned program.symbols.vars v = 0 := by
  obtain ⟨verifier, fed, finished⟩ := verify_ok_iff.mp accepted
  have recorded := Verifier.recorded_of_feedAll fed
  obtain ⟨same, -, rules⟩ := Verifier.rules_of_finish recorded finished
  have vars := Verifier.vars_of_finish finished
  rw [← same] at recorded
  have found {line : Line} {v : Variable} (member : line ∈ program.lines)
      (new : v ∈ line.newVariables) : program.symbols.vars.find? v.name v.scope =
        some (verifier.registry.symbols.vars.valued (program.lines.flatMap Line.writes) v) := by
    rw [vars, VariableTable.find?_given, recorded.find?_newVariable member new, Option.map_some]
  refine ⟨?_, ?_, ?_⟩
  · intro v member
    apply VariableTable.find?_of_mem _ member
    rw [vars, VariableTable.keys_given]
    exact recorded.registered.keys
  · intro place line stored kind name named
    have member := List.mem_of_getElem? stored
    have home : line.home = line.scope := Line.home_of_other (by simp [kind])
    obtain ⟨v, new, rfl, scope⟩ :=
      Line.newVariable_of_name (recorded.wellFormed line member) named
    have final : v.isFinal = true := by
      rw [Line.newVariables_of_declares (.inr kind)] at new
      rw [Line.isFinal_of_declared new, kind]
      rfl
    have record := found member new
    rw [scope, home] at record
    refine ⟨_, record, final, recorded.initialization_final rules vars stored kind new final, ?_⟩
    intro other writer storedOther
    split
    · rename_i here
      rw [here, stored, Option.some_inj] at storedOther
      rw [← storedOther]
      exact recorded.timesAssigned_own vars member kind new
    · rename_i elsewhere
      exact recorded.timesAssigned_elsewhere rules vars stored new final storedOther elsewhere
  · intro header member kind name parameters named parameter inHeader final
    have home := Line.home_of_header kind named
    have new : parameter.toVariable header.number header.home ∈ header.newVariables := by
      rw [Line.newVariables_of_header kind named]
      exact List.mem_map_of_mem inHeader
    have record := found member new
    rw [home] at new record
    refine ⟨_, record, final, rfl, fun writer memberWriter => ?_⟩
    obtain ⟨place, stored⟩ := List.mem_iff_getElem?.mp member
    obtain ⟨other, storedWriter⟩ := List.mem_iff_getElem?.mp memberWriter
    by_cases here : other = place
    · rw [here, stored, Option.some_inj] at storedWriter
      rw [← storedWriter, Line.timesAssigned, Line.assignments, kind]
      rfl
    · exact recorded.timesAssigned_elsewhere rules vars stored new final storedWriter here

/-- A final global, and a final local that takes its value from a final parameter. -/
theorem final_assigned_once_local :
    ∃ program v, verify ["final int a = 5;", "void f(final int b) \x7b", "final int c = b;",
        "return;", "\x7d"] = .ok program ∧
      program.symbols.vars.find? "c" (Scope.global.child (.method "f")) = some v ∧
      v.initialization? = some ⟨3, Scope.global.child (.method "f")⟩ ∧
      ∀ (other : Nat) (writer : Line), program.lines[other]? = some writer →
        writer.timesAssigned program.symbols.vars v = if other = 2 then 1 else 0 := by
  have evaluated : (verify ["final int a = 5;", "void f(final int b) \x7b", "final int c = b;",
      "return;", "\x7d"]).toOption.any (fun program => program.lines[2]?.any fun line =>
        line.kind == .finalDeclaration && line.number == 3 &&
          line.scope == Scope.global.child (.method "f") && line.newNames == ["c"]) = true := by
    decide +kernel
  obtain ⟨program, accepted, test⟩ := ok_of_any evaluated
  obtain ⟨line, stored, test⟩ := (Option.any_eq_true _ _).mp test
  simp only [Bool.and_eq_true, beq_iff_eq] at test
  obtain ⟨⟨⟨kind, number⟩, scope⟩, names⟩ := test
  obtain ⟨v, found, -, initialized, once⟩ :=
    (final_assigned_once accepted).2.1 2 line stored kind "c" (by simp [names])
  rw [scope] at found initialized
  rw [number] at initialized
  exact ⟨program, v, accepted, found, initialized, once⟩

end SJava
