import SJava.Proofs.Balance
import SJava.Proofs.Blocks

/-!
# Nesting of accepted programs

The registry nests blocks as the lines open them, whatever they are, and only the rules of meaning
say where a line of some kind may stand. Together they leave one shape of scope: the top level, or
the body of one method with `if` and `while` blocks in it (`Recorded.nested`). So a bracket that
returns to the top level can only close the body of a method, and the return that the rules ask for
before it stands directly in that body (`Recorded.closes_method`).
-/

namespace SJava

def Segment.isConditional : Segment → Bool
  | .ifBlock _ | .whileBlock _ => true
  | .global | .method _ => false

namespace Scope

variable {scope : Scope} {segment : Segment} {name : String}

/-- The body of a method, or some `if` and `while` blocks inside of it. -/
def InMethod (scope : Scope) (name : String) : Prop :=
  ∃ blocks, scope.path = blocks ++ [.method name] ∧ ∀ block ∈ blocks, block.isConditional = true

def Nested (scope : Scope) : Prop := scope = global ∨ ∃ name, scope.InMethod name

theorem inMethod_body : (global.child (.method name)).InMethod name := ⟨[], rfl, nofun⟩

theorem InMethod.child (inside : scope.InMethod name) (conditional : segment.isConditional = true) :
    (scope.child segment).InMethod name := by
  obtain ⟨blocks, path, conditionals⟩ := inside
  refine ⟨segment :: blocks, ?_, ?_⟩
  · simp [Scope.child, path]
  · simpa [conditional] using conditionals

theorem Nested.of_child (nested : (scope.child segment).Nested) : scope.Nested := by
  rcases nested with top | ⟨name, blocks, path, conditionals⟩
  · cases top
  · cases blocks with
    | nil =>
        obtain ⟨outer⟩ := scope
        cases path
        exact .inl rfl
    | cons innermost outer =>
        have inside : scope.path = outer ++ [.method name] := (List.cons.inj path).2
        exact .inr ⟨name, outer, inside, fun block member =>
          conditionals block (List.mem_cons_of_mem _ member)⟩

theorem Nested.method_of_child (nested : (global.child segment).Nested) :
    ∃ name, segment = .method name := by
  rcases nested with top | ⟨name, blocks, path, -⟩
  · cases top
  · cases blocks with
    | nil =>
        cases path
        exact ⟨name, rfl⟩
    | cons innermost outer => simp [Scope.child, global] at path

end Scope

/-! ## Steps and runs -/

/-- Where the rules let lines that open blocks stand. -/
structure Line.Placed (line : Line) : Prop where
  header : line.kind = .methodHeader → line.scope = .global
  condition : line.kind = .ifHeader ∨ line.kind = .whileHeader → line.scope ≠ .global

theorem Symbols.Rules.placed {symbols : Symbols} {lines : List Line} {line : Line}
    (rules : symbols.Rules lines) (member : line ∈ lines) : line.Placed :=
  { header := rules.headers line member
    condition := fun kind => (rules.conditions line member kind).1 }

namespace Registry.Takes

variable {registry next : Registry} {line : Line}

theorem nested (takes : registry.Takes line next) (placed : line.Placed)
    (before : registry.scope.Nested) : line.scope.Nested ∧ next.scope.Nested := by
  have inside (kind : line.kind = .ifHeader ∨ line.kind = .whileHeader)
      (scope : line.scope = registry.scope) : ∃ name, registry.scope.InMethod name :=
    before.resolve_left (scope ▸ placed.condition kind)
  cases takes with
  | declaration _ scope | other _ scope =>
      rw [scope]
      exact ⟨before, before⟩
  | method kind scope =>
      have top : registry.scope = .global := scope.symm.trans (placed.header kind)
      rw [scope, top]
      exact ⟨.inl rfl, .inr ⟨_, Scope.inMethod_body⟩⟩
  | ifBlock kind scope =>
      obtain ⟨name, inMethod⟩ := inside (.inl kind) scope
      rw [scope]
      exact ⟨before, .inr ⟨name, inMethod.child rfl⟩⟩
  | whileBlock kind scope =>
      obtain ⟨name, inMethod⟩ := inside (.inr kind) scope
      rw [scope]
      exact ⟨before, .inr ⟨name, inMethod.child rfl⟩⟩
  | close _ scope =>
      rw [scope] at before
      exact ⟨before.of_child, before.of_child⟩

end Registry.Takes

namespace Recorded

variable {registry : Registry} {lines : List Line} {line : Line} {place : Nat}

theorem nested (h : Recorded registry lines) (placed : ∀ line ∈ lines, line.Placed) :
    registry.scope.Nested ∧ ∀ line ∈ lines, line.scope.Nested := by
  induction h with
  | start => exact ⟨.inl rfl, nofun⟩
  | line before number form takes ih =>
      obtain ⟨around, earlier⟩ := ih fun line member => placed line (List.mem_append_left _ member)
      obtain ⟨here, after⟩ := takes.nested (placed _ (by simp)) around
      refine ⟨after, fun line member => ?_⟩
      rcases List.mem_append.mp member with member | member
      · exact earlier line member
      · rwa [List.mem_singleton.mp member]

/-- Where all lines are placed by the rules, a bracket that returns to the top level closes the body
of a method, and the line before it leaves the registry in that body. -/
theorem closes_method (h : Recorded registry lines) (placed : ∀ line ∈ lines, line.Placed)
    (found : lines[place]? = some line) (kind : line.kind = .closingBracket)
    (outside : line.scope = .global) :
    ∃ before block header name parameters, Recorded before (lines.take place) ∧
      openBlocks (lines.take place) = [block] ∧ lines[block]? = some header ∧
      header.kind = .methodHeader ∧ header.header? = some (name, parameters) ∧
      before.scope = header.scope.child (.method name) := by
  obtain ⟨before, after, recorded, takes, -⟩ := h.split found
  obtain ⟨segment, around⟩ := takes.of_closing kind
  have nested := (recorded.nested fun line member => placed line (List.mem_of_mem_take member)).1
  rw [around, outside] at nested
  obtain ⟨name, rfl⟩ := nested.method_of_child
  -- The path of the body has one segment, so one block is open, and its segment is a method's.
  have path := recorded.path
  rw [around, outside] at path
  obtain ⟨block, blocks, opened, segment, rest⟩ := List.map_eq_cons_iff.mp path.symm
  rw [List.map_eq_nil_iff.mp rest] at opened
  obtain ⟨header, parameters, stored, isHeader, named⟩ := recorded.header_of_segment segment
  rw [List.getElem?_take] at stored
  split at stored
  · have top := (placed header (List.mem_of_getElem? stored)).header isHeader
    exact ⟨before, block, header, name, parameters, recorded, opened, stored, isHeader, named,
      by rw [around, outside, top]⟩
  · cases stored

end Recorded

/-! ## Accepted programs -/

/-- The kinds of line that can stand at top level. -/
def LineKind.standsAtTop : LineKind → Bool
  | .declaration | .finalDeclaration | .assignment | .comment | .methodHeader | .closingBracket =>
      true
  | .methodCall | .methodReturn | .ifHeader | .whileHeader => false

theorem Symbols.Rules.standsAtTop {symbols : Symbols} {lines : List Line} {line : Line}
    (rules : symbols.Rules lines) (member : line ∈ lines) (top : line.scope = .global) :
    line.kind.standsAtTop = true := by
  cases kind : line.kind with
  | methodCall => exact absurd top (rules.calls line member kind).1
  | methodReturn => exact absurd top (rules.returns line member kind)
  | ifHeader => exact absurd top (rules.conditions line member (.inl kind)).1
  | whileHeader => exact absurd top (rules.conditions line member (.inr kind)).1
  | _ => rfl

theorem Symbols.Rules.return_before {symbols : Symbols} {lines : List Line} {line : Line}
    {place : Nat} (rules : symbols.Rules lines) (found : lines[place]? = some line)
    (kind : line.kind = .closingBracket) (outside : line.scope = .global) :
    ∃ earlier previous, place = earlier + 1 ∧ lines[earlier]? = some previous ∧
      (lines.take place).getLast? = some previous ∧ previous.kind = .methodReturn := by
  obtain ⟨inside, rfl⟩ := List.getElem?_eq_some_iff.mp found
  have split : lines = lines.take place ++ lines[place] :: lines.drop (place + 1) := by simp
  obtain ⟨previous, last, isReturn⟩ := rules.closings _ _ _ split kind outside
  cases place with
  | zero => cases last
  | succ earlier =>
      refine ⟨earlier, previous, rfl, ?_, last, isReturn⟩
      rwa [List.take_add_one, List.getElem?_eq_getElem (Nat.lt_of_succ_lt inside),
        Option.toList_some, List.getLast?_concat,
        ← List.getElem?_eq_getElem (Nat.lt_of_succ_lt inside)] at last

/-- Every line of an accepted program is at top level or inside of one method, below `if` and
`while` blocks alone. Method headers are at top level, and with them only declarations,
assignments, comments and brackets. A bracket at top level closes the body of a method, right after
a return that stands directly in this body. -/
theorem accepted_nested {texts : List String} {program : Program}
    (accepted : verify texts = .ok program) :
    (∀ line ∈ program.lines, line.scope = .global ∨ ∃ name, line.scope.InMethod name) ∧
      (∀ line ∈ program.lines, line.kind = .methodHeader → line.scope = .global) ∧
      (∀ line ∈ program.lines, line.scope = .global → line.kind.standsAtTop = true) ∧
      ∀ place line, program.lines[place]? = some line → line.kind = .closingBracket →
        line.scope = .global →
          ∃ block header name parameters, openBlocks (program.lines.take place) = [block] ∧
            program.lines[block]? = some header ∧ header.kind = .methodHeader ∧
            header.header? = some (name, parameters) ∧
            ∃ earlier previous, place = earlier + 1 ∧ program.lines[earlier]? = some previous ∧
              previous.kind = .methodReturn ∧
              previous.scope = header.scope.child (.method name) := by
  obtain ⟨verifier, fed, finished⟩ := verify_ok_iff.mp accepted
  have recorded := Verifier.recorded_of_feedAll fed
  obtain ⟨stored, -, rules⟩ := Verifier.rules_of_finish recorded finished
  rw [← stored] at recorded
  have placed : ∀ line ∈ program.lines, line.Placed := fun line => rules.placed
  refine ⟨(recorded.nested placed).2, rules.headers, fun line => rules.standsAtTop, ?_⟩
  intro place line found kind outside
  obtain ⟨before, block, header, name, parameters, recordedBefore, opened, storedHeader, isHeader,
    named, body⟩ := recorded.closes_method placed found kind outside
  obtain ⟨earlier, previous, next, storedPrevious, last, isReturn⟩ :=
    rules.return_before found kind outside
  obtain ⟨_, takes⟩ := recordedBefore.last last
  have same : before.scope = previous.scope :=
    takes.scope_of_not_opens (by rw [isReturn]; rfl)
  exact ⟨block, header, name, parameters, opened, storedHeader, isHeader, named, earlier, previous,
    next, storedPrevious, isReturn, same ▸ body⟩

/-- A method with a block in it, whose last bracket closes the body after its return. -/
theorem accepted_nested_block :
    ∃ program bracket previous,
      verify ["void f(int a) \x7b", "if (a) \x7b", "\x7d", "return;", "\x7d"] = .ok program ∧
      program.lines[4]? = some bracket ∧ bracket.kind = .closingBracket ∧
      bracket.scope = .global ∧ program.lines[3]? = some previous ∧
      previous.kind = .methodReturn ∧
      ∃ name, previous.scope = Scope.global.child (.method name) := by
  have evaluated : (verify ["void f(int a) \x7b", "if (a) \x7b", "\x7d", "return;",
      "\x7d"]).toOption.any (fun program => program.lines[4]?.any fun bracket =>
        bracket.kind == .closingBracket && bracket.scope == .global) = true := by
    decide +kernel
  obtain ⟨program, accepted, test⟩ := ok_of_any evaluated
  obtain ⟨bracket, stored, test⟩ := (Option.any_eq_true _ _).mp test
  simp only [Bool.and_eq_true, beq_iff_eq] at test
  obtain ⟨-, headers, -, closings⟩ := accepted_nested accepted
  obtain ⟨block, header, name, _, -, storedHeader, isHeader, -, earlier, previous, next,
    storedPrevious, isReturn, body⟩ := closings 4 bracket stored test.1 test.2
  cases next
  rw [headers header (List.mem_of_getElem? storedHeader) isHeader] at body
  exact ⟨program, bracket, previous, accepted, stored, test.1, test.2, storedPrevious, isReturn,
    name, body⟩

end SJava
