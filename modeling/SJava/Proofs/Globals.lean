import SJava.Proofs.Locals

/-!
# Reads of global variables

A global that an accepted program reads has its value from the first line that assigns it. A read at
top level comes after that line. A read in a block does not look at the order of the two lines: it
asks for the value to come from top level or from the same block (`global_read_assigned`), where it
can also come from a later line (`global_read_before_assigned`).
-/

namespace SJava

theorem Variable.isReadableAt_global {v : Variable} {number : UInt32} {scope : Scope}
    (isGlobal : v.scope = .global) :
    v.isReadableAt number scope = true ↔ ∃ place, v.initialization? = some place ∧
      (scope = .global → place.line < number) ∧
      (scope ≠ .global → place.scope = .global ∨ place.scope = scope) := by
  rw [isReadableAt]
  cases v.initialization? with
  | none => simp
  | some place =>
      by_cases outside : scope = .global <;> simp [Scope.isGlobal_iff, isGlobal, outside]

theorem ParameterOf.scope_ne_global {lines : List Line} {v : Variable} {place : Nat}
    (parameter : ParameterOf lines v place) : v.scope ≠ .global := by
  obtain ⟨_, _, _, _, -, -, -, -, rfl⟩ := parameter
  simp [Parameter.toVariable, Scope.child, Scope.global]

/-- Every global variable that an accepted program reads is assigned. The first line that assigns it
comes before a line at top level that reads it, and is at top level or in the same block as any
other line that reads it. -/
theorem global_read_assigned {texts : List String} {program : Program} {line : Line} {value : Token}
    {v : Variable} (accepted : verify texts = .ok program) (member : line ∈ program.lines)
    (read : value ∈ line.values) (isName : value.kind = .variableName)
    (resolves : program.symbols.vars.lookup? value.name line.scope = some v)
    (isGlobal : v.scope = .global) :
    ∃ first writer, FirstAssignedAt program.lines program.symbols.vars v first ∧
      program.lines[first]? = some writer ∧
      (line.scope = .global → writer.number < line.number) ∧
      (line.scope ≠ .global → writer.scope = .global ∨ writer.scope = line.scope) := by
  obtain ⟨verifier, fed, finished⟩ := verify_ok_iff.mp accepted
  have recorded := Verifier.recorded_of_feedAll fed
  obtain ⟨same, -, rules⟩ := Verifier.rules_of_finish recorded finished
  have vars := Verifier.vars_of_finish finished
  rw [← same] at recorded
  obtain ⟨_, visible, readable⟩ :=
    rules.readable (recorded.wellFormed line member) member read isName
  rw [resolves] at visible
  cases visible
  obtain ⟨place, initialized, atTop, inside⟩ := (Variable.isReadableAt_global isGlobal).mp readable
  rw [vars, VariableTable.lookup?_given, Option.map_eq_some_iff] at resolves
  obtain ⟨declared, found, rfl⟩ := resolves
  -- Only parameters have a value before the pass for first values, and they are no globals.
  have fresh : declared.initialization? = none := by
    cases initial : declared.initialization? with
    | none => rfl
    | some =>
        obtain ⟨_, parameter⟩ := recorded.parameter_of_initialized
          (VariableTable.lookup?_mem found) (by rw [initial]; rfl)
        exact absurd isGlobal parameter.scope_ne_global
  rw [VariableTable.valued, fresh, Option.none_or] at initialized
  obtain ⟨first, writer, stored, rfl, assigned⟩ :=
    firstAssigned_of_firstValue recorded found initialized
  exact ⟨first, writer, by rwa [vars], stored, atTop, inside⟩

/-- A method that reads a global which was given its value at top level. -/
theorem global_read_assigned_method :
    ∃ program line v, verify ["int g = 5;", "void f() \x7b", "int l = g;", "return;", "\x7d"] =
        .ok program ∧ program.lines[2]? = some line ∧
      program.symbols.vars.lookup? "g" line.scope = some v ∧
      ∃ first writer, FirstAssignedAt program.lines program.symbols.vars v first ∧
        program.lines[first]? = some writer ∧
        (line.scope = .global → writer.number < line.number) ∧
        (line.scope ≠ .global → writer.scope = .global ∨ writer.scope = line.scope) := by
  have evaluated : (verify ["int g = 5;", "void f() \x7b", "int l = g;", "return;",
      "\x7d"]).toOption.any (fun program => program.lines[2]?.any fun line =>
        line.values == [⟨.variableName, some "g"⟩] &&
          (program.symbols.vars.lookup? "g" line.scope).any (·.scope.isGlobal)) = true := by
    decide +kernel
  obtain ⟨program, accepted, test⟩ := ok_of_any evaluated
  obtain ⟨line, stored, test⟩ := (Option.any_eq_true _ _).mp test
  obtain ⟨values, test⟩ := Bool.and_eq_true_iff.mp test
  obtain ⟨v, resolves, isGlobal⟩ := (Option.any_eq_true _ _).mp test
  have read : ⟨.variableName, some "g"⟩ ∈ line.values := by
    rw [beq_iff_eq.mp values]
    exact List.mem_singleton_self _
  exact ⟨program, line, v, accepted, stored, resolves,
    global_read_assigned accepted (List.mem_of_getElem? stored) read rfl resolves
      (Scope.isGlobal_iff.mp isGlobal)⟩

/-- A block may read a global that only a later line of the block assigns. -/
theorem global_read_before_assigned :
    ∃ program line value v,
      verify ["int g;", "void f() \x7b", "int l = g;", "g = 3;", "return;", "\x7d"] = .ok program ∧
      line ∈ program.lines ∧ value ∈ line.values ∧ value.kind = .variableName ∧
      program.symbols.vars.lookup? value.name line.scope = some v ∧ v.scope = .global ∧
      ∀ writer ∈ program.lines, writer.Assigns program.symbols.vars v →
        writer.scope ≠ .global ∧ ¬writer.number < line.number := by
  have evaluated : (verify ["int g;", "void f() \x7b", "int l = g;", "g = 3;", "return;",
      "\x7d"]).toOption.any (fun program => program.lines[2]?.any fun line =>
        line.values == [⟨.variableName, some "g"⟩] &&
          (program.symbols.vars.lookup? "g" line.scope).any fun v => v.scope == .global &&
            program.lines.all fun writer =>
              !(writer.assignments.any fun pair =>
                  program.symbols.vars.lookup? pair.1.name writer.scope == some v) ||
                (writer.scope != .global && !decide (writer.number < line.number))) = true := by
    decide +kernel
  obtain ⟨program, accepted, test⟩ := ok_of_any evaluated
  obtain ⟨line, stored, test⟩ := (Option.any_eq_true _ _).mp test
  obtain ⟨values, test⟩ := Bool.and_eq_true_iff.mp test
  obtain ⟨v, resolves, test⟩ := (Option.any_eq_true _ _).mp test
  obtain ⟨isGlobal, test⟩ := Bool.and_eq_true_iff.mp test
  refine ⟨program, line, ⟨.variableName, some "g"⟩, v, accepted, List.mem_of_getElem? stored, ?_,
    rfl, resolves, beq_iff_eq.mp isGlobal, ?_⟩
  · rw [beq_iff_eq.mp values]
    exact List.mem_singleton_self _
  · intro writer inProgram assigns
    obtain ⟨pair, assigned, hit⟩ := assigns
    have late := List.all_eq_true.mp test writer inProgram
    have writes : (writer.assignments.any fun pair =>
        program.symbols.vars.lookup? pair.1.name writer.scope == some v) = true :=
      List.any_eq_true.mpr ⟨pair, assigned, by rw [hit, beq_self_eq_true]⟩
    rw [writes] at late
    simpa using late

end SJava
