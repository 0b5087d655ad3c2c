import SJava.Proofs.Run

/-!
# Accepted programs

What a program has passed when the verifier accepts it: all lines went in, every assigned name
stands for a variable, every line obeys the rules of its kind after the line before it, and the last
line is at top level.
-/

namespace SJava

namespace Symbols

variable {symbols complete : Symbols} {lines : List Line} {previous : Option LineKind}

/-- The kind of the line that comes after `before`, itself after a line of kind `previous`. -/
def kindBefore (previous : Option LineKind) (before : List Line) : Option LineKind :=
  (before.getLast?.map Line.kind).or previous

@[simp] theorem kindBefore_nil : kindBefore previous [] = previous := rfl

theorem kindBefore_cons {first : Line} :
    kindBefore previous (first :: lines) = kindBefore (some first.kind) lines := by
  rw [kindBefore, kindBefore, List.getLast?_cons]
  cases lines.getLast? <;> rfl

theorem checkLines_ok_iff :
    symbols.checkLines previous lines = .ok () ↔
      ∀ before line after, lines = before ++ line :: after →
        line.checkMeaning (kindBefore previous before) symbols = .ok () := by
  induction lines generalizing previous with
  | nil => simp [checkLines]
  | cons first rest ih =>
      rw [checkLines]
      cases outcome : first.checkMeaning previous symbols with
      | error cause =>
          constructor
          · exact nofun
          · intro all
            have passed := all [] first rest rfl
            rw [kindBefore_nil, outcome] at passed
            cases passed
      | ok =>
          show symbols.checkLines (some first.kind) rest = .ok () ↔ _
          rw [ih]
          constructor
          · intro all before line after split
            cases before with
            | nil =>
                cases split
                exact outcome
            | cons head before =>
                cases split
                rw [kindBefore_cons]
                exact all before line after rfl
          · intro all before line after split
            rw [← kindBefore_cons]
            exact all (first :: before) line after (by rw [split]; rfl)

theorem checkEnd_ok_iff :
    checkEnd lines = .ok () ↔ ∀ last, lines.getLast? = some last → last.scope = .global := by
  unfold checkEnd
  split
  · rename_i empty
    simp [empty]
  · rename_i last found
    simp only [found, Option.some.injEq, forall_eq', ← Scope.isGlobal_iff]
    split <;> simp_all

theorem check_ok_iff :
    symbols.check lines = (complete, .ok ()) ↔
      ∃ vars, symbols.vars.assignLines lines = (vars, .ok ()) ∧ complete = { symbols with vars } ∧
        complete.checkLines none lines = .ok () ∧ checkEnd lines = .ok () := by
  unfold check
  cases outcome : symbols.vars.assignLines lines with
  | mk vars assigned =>
      cases assigned with
      | error fault =>
          constructor
          · exact nofun
          · intro holds
            obtain ⟨_, assigned, _⟩ := holds
            cases assigned
      | ok =>
          simp only [Prod.mk.injEq, then_eq_ok]
          constructor
          · intro holds
            obtain ⟨rfl, passed⟩ := holds
            exact ⟨vars, ⟨rfl, trivial⟩, rfl, passed⟩
          · intro holds
            obtain ⟨_, ⟨rfl, -⟩, rfl, passed⟩ := holds
            exact ⟨rfl, passed⟩

end Symbols

namespace Verifier

variable {verifier : Verifier} {program : Program}

theorem finish_ok_iff :
    verifier.finish = .ok program ↔ program.lines = verifier.lines.toList ∧
      verifier.registry.symbols.check program.lines = (program.symbols, .ok ()) := by
  obtain ⟨lines, symbols⟩ := program
  unfold finish
  split
  · rename_i outcome
    constructor
    · exact nofun
    · intro holds
      obtain ⟨rfl, passed⟩ := holds
      rw [outcome] at passed
      cases passed
  · rename_i complete outcome
    constructor
    · intro equal
      cases equal
      exact ⟨rfl, outcome⟩
    · intro holds
      obtain ⟨rfl, passed⟩ := holds
      rw [outcome] at passed
      cases passed
      rfl

end Verifier

theorem verify_ok_iff {texts : List String} {program : Program} :
    verify texts = .ok program ↔
      ∃ verifier, Verifier.feedAll {} texts = .ok verifier ∧ verifier.finish = .ok program := by
  unfold verify
  cases Verifier.feedAll {} texts with
  | error fault => exact ⟨nofun, fun ⟨_, fed, _⟩ => by cases fed⟩
  | ok verifier =>
      constructor
      · exact fun finished => ⟨verifier, rfl, finished⟩
      · intro holds
        obtain ⟨_, ⟨⟩, finished⟩ := holds
        exact finished

end SJava
