import SJava.Proofs.Meaning

/-!
# Balance of blocks

The depth of the scope that the next line is read in is at all times the number of lines that opened
a block less the number of closing brackets (`Recorded.depth`). The end of a program is not judged
by that scope but by the one on the last line, and a line that opens a block has the scope around
its block. The two tell apart only for a last line that opens a block, and of those a program can
end with a method header at top level alone, since a condition cannot stand there.
-/

namespace SJava

def openers (lines : List Line) : Nat := lines.countP fun line => line.kind.opens

def closers (lines : List Line) : Nat := lines.countP fun line => line.kind == .closingBracket

theorem openers_singleton {line : Line} : openers [line] = if line.kind.opens then 1 else 0 := by
  simp [openers, List.countP_singleton]

theorem closers_singleton {line : Line} :
    closers [line] = if line.kind = .closingBracket then 1 else 0 := by
  simp [closers, List.countP_singleton]

namespace Registry.Takes

variable {registry next : Registry} {line : Line}

theorem depth (takes : registry.Takes line next) :
    next.scope.depth + closers [line] = registry.scope.depth + openers [line] := by
  rw [closers_singleton, openers_singleton]
  cases takes with
  | declaration kind => rcases kind with kind | kind <;> rw [kind] <;> rfl
  | method kind | ifBlock kind | whileBlock kind =>
      rw [kind]
      rfl
  | close kind scope =>
      rw [kind, scope]
      rfl
  | other kind => rcases kind with kind | kind | kind | kind <;> rw [kind] <;> rfl

end Registry.Takes

namespace Recorded

variable {registry : Registry} {lines : List Line}

theorem depth (h : Recorded registry lines) :
    registry.scope.depth + closers lines = openers lines := by
  induction h with
  | start => rfl
  | @line _ _ lines line _ _ _ takes ih =>
      have step := takes.depth
      have closed : closers (lines ++ [line]) = closers lines + closers [line] :=
        List.countP_append
      have opened : openers (lines ++ [line]) = openers lines + openers [line] :=
        List.countP_append
      omega

theorem start_of_nil (h : Recorded registry []) : registry = {} := by
  generalize empty : ([] : List Line) = lines at h
  cases h with
  | start => rfl
  | line => simp at empty

theorem last (h : Recorded registry lines) {last : Line} (found : lines.getLast? = some last) :
    ∃ before, Registry.Takes before last registry := by
  cases h with
  | start => cases found
  | @line before _ _ _ _ _ _ takes =>
      rw [List.getLast?_append, List.getLast?_singleton, Option.some_or] at found
      cases found
      exact ⟨before, takes⟩

end Recorded

/-- The last line of an accepted program opens a block only if it is a method header. -/
theorem methodHeader_of_opens {symbols : Symbols} {lines : List Line} {last : Line}
    (rules : symbols.Rules lines) (found : lines.getLast? = some last)
    (opens : last.kind.opens = true) : last.kind = .methodHeader := by
  have member := List.mem_of_getLast? found
  have outside := rules.ending last found
  cases kind : last.kind with
  | methodHeader => rfl
  | ifHeader => exact absurd outside (rules.conditions last member (.inl kind)).1
  | whileHeader => exact absurd outside (rules.conditions last member (.inr kind)).1
  | _ =>
      rw [kind] at opens
      cases opens

theorem scope_at_end {symbols : Symbols} {registry : Registry} {lines : List Line}
    (recorded : Recorded registry lines) (rules : symbols.Rules lines) :
    (lines.getLast?.map Line.kind ≠ some .methodHeader → registry.scope = .global) ∧
      (lines.getLast?.map Line.kind = some .methodHeader →
        ∃ name, registry.scope = Scope.global.child (.method name)) := by
  cases found : lines.getLast? with
  | none =>
      rw [List.getLast?_eq_none_iff] at found
      subst found
      cases recorded.start_of_nil
      exact ⟨fun _ => rfl, nofun⟩
  | some last =>
      obtain ⟨before, takes⟩ := recorded.last found
      -- The rules speak of the scope on the last line, the balance of the one after it.
      have outside := rules.ending last found
      rw [Option.map_some, ne_eq, Option.some_inj]
      cases opens : last.kind.opens with
      | false =>
          refine ⟨fun _ => (takes.scope_of_not_opens opens).trans outside, fun header => ?_⟩
          rw [header] at opens
          cases opens
      | true =>
          have header := methodHeader_of_opens rules found opens
          obtain ⟨segment, inside, named⟩ := takes.scope_of_opens opens
          obtain ⟨name, rfl⟩ := named header
          exact ⟨fun other => absurd header other, fun _ => ⟨name, outside ▸ inside⟩⟩

/-- An accepted program is balanced, and its last scope is the top level, exactly if it does not
end with a method header. If it does, the body of that method, and nothing else, is left open. -/
theorem accepted_balanced_iff {texts : List String} {program : Program}
    (accepted : verify texts = .ok program) :
    ∃ verifier, Verifier.feedAll {} texts = .ok verifier ∧
      verifier.lines.toList = program.lines ∧
      (openers program.lines = closers program.lines ∧ verifier.registry.scope = .global ↔
        program.lines.getLast?.map Line.kind ≠ some .methodHeader) ∧
      (program.lines.getLast?.map Line.kind = some .methodHeader →
        openers program.lines = closers program.lines + 1 ∧
          ∃ name, verifier.registry.scope = Scope.global.child (.method name)) := by
  obtain ⟨verifier, fed, finished⟩ := verify_ok_iff.mp accepted
  have recorded := Verifier.recorded_of_feedAll fed
  obtain ⟨stored, -, rules⟩ := Verifier.rules_of_finish recorded finished
  rw [← stored] at recorded
  obtain ⟨atTop, inMethod⟩ := scope_at_end recorded rules
  have depth := recorded.depth
  refine ⟨verifier, fed, stored.symm, ⟨?_, fun other => ?_⟩, fun header => ?_⟩
  · rintro ⟨-, outside⟩ header
    obtain ⟨name, inside⟩ := inMethod header
    rw [inside] at outside
    cases outside
  · have outside := atTop other
    rw [outside] at depth
    exact ⟨by simpa [Scope.depth, Scope.global] using depth.symm, outside⟩
  · obtain ⟨name, inside⟩ := inMethod header
    rw [inside, Scope.depth_child] at depth
    refine ⟨?_, name, inside⟩
    have top : Scope.global.depth = 0 := rfl
    omega

/-- A method that is closed leaves nothing open. -/
theorem accepted_balanced_iff_closed :
    ∃ program verifier, verify ["void f() \x7b", "return;", "\x7d"] = .ok program ∧
      Verifier.feedAll {} ["void f() \x7b", "return;", "\x7d"] = .ok verifier ∧
      openers program.lines = closers program.lines ∧ verifier.registry.scope = .global := by
  have evaluated : (verify ["void f() \x7b", "return;", "\x7d"]).toOption.any (fun program =>
      program.lines.getLast?.map Line.kind == some .closingBracket) = true := by
    decide +kernel
  obtain ⟨program, accepted, last⟩ := ok_of_any evaluated
  obtain ⟨verifier, fed, -, balanced, -⟩ := accepted_balanced_iff accepted
  have closed : program.lines.getLast?.map Line.kind ≠ some .methodHeader := by
    rw [beq_iff_eq.mp last]
    exact nofun
  exact ⟨program, verifier, accepted, fed, balanced.mpr closed⟩

/-- The header of a method is accepted as a whole program, and leaves its body open. -/
theorem accepted_unclosed :
    ∃ program verifier, verify ["void f() \x7b"] = .ok program ∧
      Verifier.feedAll {} ["void f() \x7b"] = .ok verifier ∧
      openers program.lines = 1 ∧ closers program.lines = 0 ∧
      verifier.registry.scope = Scope.global.child (.method "f") := by
  have evaluated : (verify ["void f() \x7b"]).toOption.any (fun program =>
      openers program.lines == 1 && closers program.lines == 0) = true := by
    decide +kernel
  have left : (Verifier.feedAll {} ["void f() \x7b"]).toOption.any (fun verifier =>
      verifier.registry.scope == Scope.global.child (.method "f")) = true := by
    decide +kernel
  obtain ⟨program, accepted, counts⟩ := ok_of_any evaluated
  obtain ⟨verifier, fed, inside⟩ := ok_of_any left
  simp only [Bool.and_eq_true, beq_iff_eq] at counts
  exact ⟨program, verifier, accepted, fed, counts.1, counts.2, beq_iff_eq.mp inside⟩

end SJava
