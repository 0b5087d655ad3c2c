import SJava.Proofs.Globals
import SJava.Proofs.Swapping
import Mathlib.Data.List.Chain

/-!
# The order of methods

Two methods that follow each other can be swapped, as long as neither of them gives a value to a
global variable (`methods_swap`). Then at most one of them gives a variable its first value, so that
first values do not depend on the order (`Swap.Fair.lookup?_given_swapped`). Whether a variable can
be read does, but a method reads a local from lines of its own, which keep their order, and a global
from lines that stay in place (`Swap.Fair.isReadableAt_swapped`). All other rules look at each line
and the one right before it.
-/

namespace SJava

/-- No name that some lines give a value to stands for a global variable. -/
def KeepGlobals (vars : VariableTable) (lines : List Line) : Prop :=
  ∀ line ∈ lines, ∀ name ∈ line.written, ∀ v ∈ vars.lookup? name line.scope, v.scope ≠ .global

instance (vars : VariableTable) (lines : List Line) : Decidable (KeepGlobals vars lines) :=
  inferInstanceAs (Decidable (∀ line ∈ lines, ∀ name ∈ line.written,
    ∀ v ∈ vars.lookup? name line.scope, v.scope ≠ .global))

section

variable {vars : VariableTable} {lines : List Line} {line : Line} {v : Variable} {write : Write}
  {place : Initialization} {name : String}

theorem Line.kind_of_written (written : name ∈ line.written) :
    line.kind ≠ .methodHeader ∧ line.kind ≠ .closingBracket := by
  rw [Line.written] at written
  split at written
  · rename_i assigns
    constructor <;> rintro kind <;> simp [kind, LineKind.assigns] at assigns
  · cases written

theorem Variable.isReadableAt_of_earlier {number : UInt32} {scope : Scope}
    (isLocal : v.scope ≠ .global) (own : v.scope = scope)
    (initialized : v.initialization? = some place) (same : place.scope = scope)
    (earlier : place.line < number) : v.isReadableAt number scope = true := by
  rw [isReadableAt, initialized]
  show (if v.scope.isGlobal = true then _ else _) = true
  rw [if_neg (mt Scope.isGlobal_iff.mp isLocal)]
  simp only [own, same, earlier, beq_self_eq_true, decide_true, Bool.and_self]

/-- A value that does not reach a global stays in the outermost block of its line. -/
theorem KeepGlobals.root?_of_hits (keeps : KeepGlobals vars lines) (member : line ∈ lines)
    (written : write ∈ line.writes) (hits : vars.hits v write = true) :
    v.scope ≠ .global ∧ v.scope.root? = line.home.root? := by
  obtain ⟨name, named, rfl⟩ := List.mem_map.mp written
  obtain ⟨target, resolves, -, scope⟩ := VariableTable.hits_iff.mp hits
  have inside := keeps line member name named target resolves
  have encloses := (VariableTable.lookup?_some resolves).2.2
  rw [scope, Line.home_of_other (Line.kind_of_written named).1]
  exact ⟨inside, (Scope.root?_of_encloses encloses inside).symm⟩

/-! ## Returns -/

/-- A line that returns to top level comes after a return. -/
def Returns (before line : Line) : Prop := line.Ends → before.kind = .methodReturn

theorem returns_append {more : List Line} (stays : ∀ line ∈ more.head?, ¬line.Ends) :
    (lines ++ more).IsChain Returns ↔ lines.IsChain Returns ∧ more.IsChain Returns := by
  rw [List.isChain_append]
  constructor
  · rintro ⟨front, back, -⟩
    exact ⟨front, back⟩
  · rintro ⟨front, back⟩
    exact ⟨front, back, fun _ _ line member ends => absurd ends (stays line member)⟩

theorem returns_shifted {s : Shift} :
    (lines.map s.line).IsChain Returns ↔ lines.IsChain Returns := by
  rw [List.isChain_map]
  exact List.IsChain.iff fun before line => imp_congr_left Shift.ends_line

theorem Walk.head_stays {first last : Position} (walk : Walk first lines last)
    (outside : first.scope = .global) : ∀ line ∈ lines.head?, ¬line.Ends := by
  rintro line start ⟨kind, -⟩
  obtain ⟨rest, rfl⟩ := List.head?_eq_some_iff.mp start
  obtain ⟨next, here, -⟩ := walk_cons.mp walk
  cases here with
  | closing _ scope =>
      rw [outside] at scope
      cases scope
  | plain _ other => exact other kind
  | header other | ifHeader other | whileHeader other => simp [kind] at other

theorem Walk.closings_iff {last : Position} (walk : Walk {} lines last) :
    (∀ before line after, lines = before ++ line :: after → line.kind = .closingBracket →
      line.scope = .global →
        ∃ previous, before.getLast? = some previous ∧ previous.kind = .methodReturn) ↔
      lines.IsChain Returns := by
  rw [List.isChain_iff_forall_rel_of_append_cons_cons]
  constructor
  · intro closings previous line front back split ends
    obtain ⟨other, found, isReturn⟩ :=
      closings (front ++ [previous]) line back (by simp [split]) ends.1 ends.2
    rw [List.getLast?_concat, Option.some_inj] at found
    rwa [found]
  · intro returns before line after split kind outside
    rcases List.eq_nil_or_concat before with rfl | ⟨front, previous, rfl⟩
    · refine absurd ⟨kind, outside⟩ (walk.head_stays rfl line ?_)
      rw [split]
      rfl
    · rw [List.concat_eq_append] at split ⊢
      rw [List.append_assoc, List.singleton_append] at split
      exact ⟨previous, List.getLast?_concat, returns split ⟨kind, outside⟩⟩

end

namespace Swap

variable {s : Swap} {registry : Registry} {line : Line} {t : Shift} {v : Variable}
  {place : Initialization}

def KeepsGlobals (s : Swap) (registry : Registry) : Prop :=
  KeepGlobals registry.symbols.vars (s.first ++ s.second)

/-- The table of a program once its variables have their first values. -/
def given (s : Swap) (registry : Registry) : VariableTable :=
  registry.symbols.vars.given (s.lines.flatMap Line.writes)

def valued (s : Swap) (registry : Registry) : Variable → Variable :=
  registry.symbols.vars.valued (s.lines.flatMap Line.writes)

namespace Fair

/-! ## First values -/

theorem writes_swapped (fair : s.Fair registry) :
    s.swapped.lines.flatMap Line.writes = (s.reordered.flatMap Line.writes).map s.write :=
  fair.flatMap_swapped fun _ _ _ moves => moves.writes

theorem hits_swapped (fair : s.Fair registry) {write : Write} :
    (s.registry registry).symbols.vars.hits (s.relabelling.record v) (s.write write) =
      registry.symbols.vars.hits v write := by
  have scope : (s.write write).2.scope = s.scope write.2.scope := rfl
  rw [VariableTable.hits, VariableTable.hits, scope, fair.lookup?_swapped, Option.any_map]
  congr 1
  funext target
  exact congrArg₂ and s.relabelling.beq_name s.relabelling.beq_scope

/-- A variable has its first value from one of the methods at most. -/
theorem one_writes (fair : s.Fair registry) (keeps : s.KeepsGlobals registry) :
    registry.symbols.vars.firstValue? (s.first.flatMap Line.writes) v = none ∨
      registry.symbols.vars.firstValue? (s.second.flatMap Line.writes) v = none := by
  obtain ⟨-, inFirst, inSecond⟩ := fair.roots
  have rooted {lines : List Line} {name : String}
      (inside : ∀ line ∈ lines, line ∈ s.first ++ s.second)
      (roots : ∀ line ∈ lines, line.Ends ∨ line.home.root? = some (.method name))
      (found : registry.symbols.vars.firstValue? (lines.flatMap Line.writes) v ≠ none) :
      v.scope.root? = some (.method name) := by
    -- The writer's name stands for a local, whose scope begins like that of the writer.
    obtain ⟨place, found⟩ := Option.ne_none_iff_exists'.mp found
    obtain ⟨_, writer, stored, -, ⟨write, written, hits⟩, -⟩ :=
      VariableTable.firstValue?_some found
    have member := List.mem_of_getElem? stored
    rw [(keeps.root?_of_hits (inside writer member) written hits).2]
    obtain ⟨name, named, -⟩ := List.mem_map.mp written
    rcases roots writer member with ends | root
    · exact absurd ends.1 (Line.kind_of_written named).2
    · exact root
  by_contra both
  rw [not_or] at both
  exact fair.not_both (rooted (by simp +contextual) inFirst both.1)
    (rooted (by simp +contextual) inSecond both.2)

theorem firstValue?_reordered (fair : s.Fair registry) (keeps : s.KeepsGlobals registry) :
    registry.symbols.vars.firstValue? (s.reordered.flatMap Line.writes) v =
      registry.symbols.vars.firstValue? (s.lines.flatMap Line.writes) v := by
  simp only [reordered, lines, List.flatMap_append, VariableTable.firstValue?_append]
  rcases fair.one_writes (v := v) keeps with none | none <;> simp [none]

theorem firstValue?_swapped (fair : s.Fair registry) (keeps : s.KeepsGlobals registry) :
    (s.registry registry).symbols.vars.firstValue? (s.swapped.lines.flatMap Line.writes)
        (s.relabelling.record v) =
      (registry.symbols.vars.firstValue? (s.lines.flatMap Line.writes) v).map s.place := by
  have hits : (s.registry registry).symbols.vars.hits (s.relabelling.record v) ∘ s.write =
      registry.symbols.vars.hits v := funext fun _ => fair.hits_swapped
  rw [← fair.firstValue?_reordered keeps, VariableTable.firstValue?, fair.writes_swapped,
    List.find?_map, hits, VariableTable.firstValue?, Option.map_map, Option.map_map]
  rfl

theorem valued_swapped (fair : s.Fair registry) (keeps : s.KeepsGlobals registry) :
    s.swapped.valued (s.registry registry) (s.relabelling.record v) =
      s.relabelling.record (s.valued registry v) := by
  rw [valued, VariableTable.valued, fair.firstValue?_swapped keeps, valued, VariableTable.valued]
  simp only [Relabelling.record, Option.map_or]
  rfl

theorem lookup?_given_swapped (fair : s.Fair registry) (keeps : s.KeepsGlobals registry)
    {name : String} {scope : Scope} :
    (s.swapped.given (s.registry registry)).lookup? name (s.scope scope) =
      ((s.given registry).lookup? name scope).map s.relabelling.record := by
  rw [given, given, VariableTable.lookup?_given, VariableTable.lookup?_given, fair.lookup?_swapped,
    Option.map_map, Option.map_map]
  exact congrArg (Option.map · _) (funext fun _ => fair.valued_swapped keeps)

/-! ## Reads -/

/-- A first value is given in the scope that its line declares and writes names in. -/
theorem origin_of_initialized (fair : s.Fair registry)
    (member : v ∈ registry.symbols.vars.records)
    (initialized : (s.valued registry v).initialization? = some place) :
    ∃ origin ∈ s.lines, ¬origin.Ends ∧ place = ⟨origin.number, origin.home⟩ ∧
      (v.scope = .global → ∃ write ∈ origin.writes,
        registry.symbols.vars.hits v write = true) := by
  rw [valued, VariableTable.valued] at initialized
  cases initial : v.initialization? with
  | some =>
      rw [initial, Option.some_or, ← initial] at initialized
      obtain ⟨_, parameter⟩ :=
        fair.registered.recorded.parameter_of_initialized member (by rw [initial]; rfl)
      rw [fair.registered.vars] at member
      obtain ⟨origin, stored, new⟩ := List.mem_flatMap.mp member
      refine ⟨origin, stored, ?_, Line.initialization_of_newVariable new initialized,
        fun isGlobal => absurd isGlobal parameter.scope_ne_global⟩
      rintro ⟨kind, -⟩
      rw [Line.newVariables_of_other (by simp [kind]) (by simp [kind]) (by simp [kind])] at new
      cases new
  | none =>
      rw [initial, Option.none_or] at initialized
      obtain ⟨_, writer, stored, rfl, ⟨write, written, hits⟩, -⟩ :=
        VariableTable.firstValue?_some initialized
      obtain ⟨name, named, -⟩ := List.mem_map.mp written
      obtain ⟨notHeader, notClosing⟩ := Line.kind_of_written named
      refine ⟨writer, List.mem_of_getElem? stored, fun ends => notClosing ends.1, ?_,
        fun _ => ⟨write, written, hits⟩⟩
      rw [Line.home_of_other notHeader]

theorem shift_of_global (fair : s.Fair registry) (keeps : s.KeepsGlobals registry)
    (member : v ∈ registry.symbols.vars.records) (isGlobal : v.scope = .global)
    (initialized : (s.valued registry v).initialization? = some place) :
    s.shift place.scope = 0 := by
  obtain ⟨origin, stored, stays, rfl, written⟩ := fair.origin_of_initialized member initialized
  obtain ⟨write, written, hits⟩ := written isGlobal
  have outside : origin ∈ s.before ++ s.after := by
    have notInside : origin ∉ s.first ++ s.second := fun inside =>
      (keeps.root?_of_hits inside written hits).1 isGlobal
    simp only [lines, List.mem_append] at stored notInside ⊢
    tauto
  exact (fair.moves.1 origin outside).resolve_left stays

theorem mem_of_root (fair : s.Fair registry) (member : line ∈ s.lines) (stays : ¬line.Ends) :
    (line.home.root? = some (.method (methodNameOf s.first)) → line ∈ s.first) ∧
      (line.home.root? = some (.method (methodNameOf s.second)) → line ∈ s.second) := by
  obtain ⟨outside, inFirst, inSecond⟩ := fair.roots
  have outsideBoth (inside : line ∈ s.before ++ s.after) :
      (line.home.root? = some (.method (methodNameOf s.first)) → line ∈ s.first) ∧
        (line.home.root? = some (.method (methodNameOf s.second)) → line ∈ s.second) := by
    obtain ⟨notFirst, notSecond⟩ := outside line inside
    exact ⟨fun root => absurd root notFirst, fun root => absurd root notSecond⟩
  simp only [lines, List.mem_append] at member
  rcases member with before | first | second | after
  · exact outsideBoth (by simp [before])
  · exact ⟨fun _ => first,
      fun root => (fair.not_both ((inFirst line first).resolve_left stays) root).elim⟩
  · exact ⟨fun root => (fair.not_both root ((inSecond line second).resolve_left stays)).elim,
      fun _ => second⟩
  · exact outsideBoth (by simp [after])

/-- The lines of a block keep their order. -/
theorem number_lt_iff (fair : s.Fair registry) {other : Line} (member : line ∈ s.lines)
    (memberOther : other ∈ s.lines) (stays : ¬line.Ends) (staysOther : ¬other.Ends)
    (home : line.home = other.home) :
    line.number + (s.shift other.home).number < other.number + (s.shift other.home).number ↔
      line.number < other.number := by
  obtain ⟨-, first, second, -⟩ := fair.numbers
  obtain ⟨-, secondMoved, firstMoved, -⟩ := fair.swapped.numbers
  have few := fair.few
  simp only [lines, List.length_append] at few
  have before : s.swapped.before.length = s.before.length := rfl
  have length : s.swapped.first.length = s.second.length := List.length_map _
  rw [shift]
  split
  · rename_i root
    have here : line ∈ s.first := (fair.mem_of_root member stays).1 (home ▸ root)
    have there := (fair.mem_of_root memberOther staysOther).1 root
    exact Numbered.lt_iff first (by omega) firstMoved (by omega) here there
  · split
    · rename_i root
      have here : line ∈ s.second := (fair.mem_of_root member stays).2 (home ▸ root)
      have there := (fair.mem_of_root memberOther staysOther).2 root
      exact Numbered.lt_iff second (by omega) secondMoved (by omega) here there
    · show line.number + 0 < other.number + 0 ↔ _
      rw [add_zero, add_zero]

theorem isReadableAt_swapped (fair : s.Fair registry) (keeps : s.KeepsGlobals registry)
    (member : v ∈ registry.symbols.vars.records) (stored : line ∈ s.lines) (stays : ¬line.Ends)
    (notHeader : line.kind ≠ .methodHeader)
    (readable : (s.valued registry v).isReadableAt line.number line.scope = true) :
    (s.relabelling.record (s.valued registry v)).isReadableAt
      (line.number + (s.shift line.scope).number) (s.scope line.scope) = true := by
  have moved {place : Initialization}
      (initialized : (s.valued registry v).initialization? = some place) :
      (s.relabelling.record (s.valued registry v)).initialization? = some (s.place place) := by
    rw [Relabelling.record, initialized]
    rfl
  by_cases isGlobal : v.scope = .global
  · have valuedGlobal : (s.valued registry v).scope = .global := isGlobal
    obtain ⟨place, initialized, atTop, inside⟩ :=
      (Variable.isReadableAt_global valuedGlobal).mp readable
    -- The first value of a global stays in place, as does a line at top level that reads it.
    have still := fair.shift_of_global keeps member isGlobal initialized
    refine (Variable.isReadableAt_global (scope_eq_global.mpr isGlobal)).mpr
      ⟨s.place place, moved initialized, ?_, ?_⟩
    · intro outside
      rw [scope_eq_global] at outside
      rw [outside, Swap.place, still]
      show place.line + 0 < line.number + 0
      rw [add_zero, add_zero]
      exact atTop outside
    · intro notOutside
      exact (inside (mt scope_eq_global.mpr notOutside)).imp scope_eq_global.mpr (congrArg s.scope)
  · obtain ⟨own, place, initialized, same, earlier⟩ := Variable.isReadableAt_local readable isGlobal
    obtain ⟨origin, storedOrigin, staysOrigin, rfl, -⟩ :=
      fair.origin_of_initialized member initialized
    have home : origin.home = line.home := same.trans (Line.home_of_other notHeader).symm
    have order := (fair.number_lt_iff storedOrigin stored staysOrigin stays home).mpr earlier
    rw [Line.home_of_other notHeader] at order
    refine Variable.isReadableAt_of_earlier (mt scope_eq_global.mp isGlobal) (congrArg s.scope own)
      (moved initialized) (congrArg s.scope same) ?_
    show origin.number + (s.shift origin.home).number < _
    rwa [show origin.home = line.scope from same]

/-! ## Values -/

variable {value : Token} {type : ValueType} {name : String}

theorem hasType_swapped (fair : s.Fair registry) (keeps : s.KeepsGlobals registry)
    (stored : line ∈ s.lines) (moves : s.Moves t line) (notHeader : line.kind ≠ .methodHeader)
    (notClosing : line.kind ≠ .closingBracket)
    (typed : (s.given registry).HasType line value type) :
    (s.swapped.given (s.registry registry)).HasType (t.line line) value type := by
  cases typed with
  | ofLiteral kind known => exact .ofLiteral kind known
  | ofVariable kind visible readable =>
      have found := visible
      rw [given, VariableTable.lookup?_given, Option.map_eq_some_iff] at found
      obtain ⟨v, found, rfl⟩ := found
      have moved : (s.swapped.given (s.registry registry)).lookup? value.name (t.line line).scope =
          some (s.relabelling.record (s.valued registry v)) := by
        rw [moves.scope_eq, fair.lookup?_given_swapped keeps, visible]
        rfl
      show VariableTable.HasType _ _ value (s.relabelling.record (s.valued registry v)).type
      refine .ofVariable kind moved ?_
      have shift := moves.shift_eq notHeader notClosing
      rw [moves.scope_eq, Shift.line, ← shift]
      exact fair.isReadableAt_swapped keeps (VariableTable.lookup?_mem found) stored
        (fun ends => notClosing ends.1) notHeader readable

theorem fits_swapped (fair : s.Fair registry) (keeps : s.KeepsGlobals registry)
    (stored : line ∈ s.lines) (moves : s.Moves t line) (notHeader : line.kind ≠ .methodHeader)
    (notClosing : line.kind ≠ .closingBracket) (fits : (s.given registry).Fits line name value) :
    (s.swapped.given (s.registry registry)).Fits (t.line line) name value := by
  obtain ⟨target, type, visible, typed, accepts⟩ := fits
  refine ⟨s.relabelling.record target, type, ?_,
    fair.hasType_swapped keeps stored moves notHeader notClosing typed, accepts⟩
  rw [moves.scope_eq, fair.lookup?_given_swapped keeps, visible, Option.map_some]

/-! ## Rules -/

theorem chains (fair : s.Fair registry) : s.lines.IsChain Returns ↔
    s.before.IsChain Returns ∧ s.first.IsChain Returns ∧ s.second.IsChain Returns ∧
      s.after.IsChain Returns := by
  obtain ⟨start, before, rest⟩ := walk_append.mp fair.registered.walk
  obtain ⟨middle, first, more⟩ := walk_append.mp rest
  obtain ⟨stop, second, after⟩ := walk_append.mp more
  obtain ⟨atStart, atMiddle, -⟩ := fair.first.roots first
  obtain ⟨-, atStop, -⟩ := fair.second.roots second
  rw [lines, returns_append (rest.head_stays atStart), returns_append (more.head_stays atMiddle),
    returns_append (after.head_stays atStop)]

theorem returns_swapped (fair : s.Fair registry) (returns : s.lines.IsChain Returns) :
    s.swapped.lines.IsChain Returns := by
  obtain ⟨before, first, second, after⟩ := fair.chains.mp returns
  exact fair.swapped.chains.mpr
    ⟨before, returns_shifted.mpr second, returns_shifted.mpr first, after⟩

theorem ending_swapped (fair : s.Fair registry)
    (ending : ∀ last, s.lines.getLast? = some last → last.scope = .global) :
    ∀ last, s.swapped.lines.getLast? = some last → last.scope = .global := by
  intro last found
  simp only [lines, List.getLast?_append] at ending found
  have same : s.swapped.after = s.after := rfl
  rw [same] at found
  cases final : s.after.getLast? with
  | some line =>
      simp only [final, Option.some_or, Option.some.injEq, forall_eq'] at ending found
      rwa [← found]
  | none =>
      obtain ⟨closing, stop, ends⟩ := fair.swapped.second.ends
      rw [Option.mem_def] at stop
      simp only [final, stop, Option.none_or, Option.some_or, Option.some.injEq] at found
      rw [← found]
      exact ends.2

theorem assigned_swapped (fair : s.Fair registry)
    (assigned : (registry.symbols.vars.assignLines s.lines).2 = .ok ()) :
    ((s.registry registry).symbols.vars.assignLines s.swapped.lines).2 = .ok () := by
  rw [VariableTable.assignLines_ok_iff] at assigned ⊢
  rw [fair.writes_swapped]
  refine List.forall_mem_map.mpr fun write member => ?_
  have seen := assigned write ((reordered_perm.flatMap_right _).mem_iff.mp member)
  have scope : (s.write write).2.scope = s.scope write.2.scope := rfl
  rw [VariableTable.sees, scope, fair.lookup?_swapped, Option.isSome_map]
  exact seen

theorem completed_vars (assigned : (registry.symbols.vars.assignLines s.lines).2 = .ok ()) :
    (registry.symbols.completed s.lines).vars = s.given registry :=
  VariableTable.assignLines_eq (Prod.ext rfl assigned)

theorem rules_swapped (fair : s.Fair registry) (keeps : s.KeepsGlobals registry)
    (rules : (registry.symbols.completed s.lines).Rules s.lines) :
    ((s.registry registry).symbols.completed s.swapped.lines).Rules s.swapped.lines := by
  have assigned := Symbols.assigned_of_rules fair.registered.formed rules
  have vars := completed_vars assigned
  have varsMoved := completed_vars (fair.assigned_swapped assigned)
  have typed {line : Line} {t : Shift} {value : Token} {type : ValueType} (stored : line ∈ s.lines)
      (moves : s.Moves t line) (notHeader : line.kind ≠ .methodHeader)
      (notClosing : line.kind ≠ .closingBracket)
      (typed : (registry.symbols.completed s.lines).vars.HasType line value type) :
      ((s.registry registry).symbols.completed s.swapped.lines).vars.HasType (t.line line) value
        type := by
    rw [vars] at typed
    rw [varsMoved]
    exact fair.hasType_swapped keeps stored moves notHeader notClosing typed
  exact
    { targets := by
        intro line member kind
        obtain ⟨line, stored, t, moves, rfl⟩ := fair.mem_swapped member
        obtain ⟨v, visible, mutable⟩ := rules.targets line stored kind
        refine ⟨s.relabelling.record v, ?_, mutable⟩
        rw [vars] at visible
        rw [moves.scope_eq, varsMoved, fair.lookup?_given_swapped keeps]
        exact congrArg (Option.map s.relabelling.record) visible
      values := by
        intro line member pair assigns
        obtain ⟨line, stored, t, moves, rfl⟩ := fair.mem_swapped member
        have fits := rules.values line stored pair assigns
        have formed := fair.registered.formed line stored
        have written : pair.1.name ∈ line.written := by
          rw [Line.written_eq formed]
          exact List.mem_map_of_mem assigns
        obtain ⟨notHeader, notClosing⟩ := Line.kind_of_written written
        rw [vars] at fits
        rw [varsMoved]
        exact fair.fits_swapped keeps stored moves notHeader notClosing fits
      calls := by
        intro line member kind
        obtain ⟨line, stored, t, moves, rfl⟩ := fair.mem_swapped member
        have isCall : line.kind = .methodCall := kind
        obtain ⟨inside, method, known, fits⟩ := rules.calls line stored kind
        refine ⟨?_, method, ?_, ?_⟩
        · exact mt Shift.scope_eq_global.mp inside
        · exact fair.find?_method_swapped.trans known
        · refine fits.imp fun slot value fits => ?_
          obtain ⟨type, found, accepts⟩ := fits
          exact ⟨type, typed stored moves (by simp [isCall]) (by simp [isCall]) found, accepts⟩
      conditions := by
        intro line member kind
        obtain ⟨line, stored, t, moves, rfl⟩ := fair.mem_swapped member
        have isCondition : line.kind = .ifHeader ∨ line.kind = .whileHeader := kind
        obtain ⟨inside, atoms⟩ := rules.conditions line stored kind
        refine ⟨?_, fun atom read isName => ?_⟩
        · exact mt Shift.scope_eq_global.mp inside
        · obtain ⟨type, found, condition⟩ := atoms atom read isName
          refine ⟨type, typed stored moves ?_ ?_ found, condition⟩
          · rcases isCondition with kind | kind <;> simp [kind]
          · rcases isCondition with kind | kind <;> simp [kind]
      headers := by
        intro line member kind
        obtain ⟨line, stored, t, moves, rfl⟩ := fair.mem_swapped member
        exact Shift.scope_eq_global.mpr (rules.headers line stored kind)
      returns := by
        intro line member kind
        obtain ⟨line, stored, t, moves, rfl⟩ := fair.mem_swapped member
        exact mt Shift.scope_eq_global.mp (rules.returns line stored kind)
      closings := by
        have returns := fair.registered.walk.closings_iff.mp rules.closings
        exact fair.walk_swapped.closings_iff.mpr (fair.returns_swapped returns)
      ending := fair.ending_swapped rules.ending }

theorem keepsGlobals_swapped (fair : s.Fair registry) (keeps : s.KeepsGlobals registry) :
    s.swapped.KeepsGlobals (s.registry registry) := by
  obtain ⟨-, inFirst, inSecond⟩ := fair.moves
  have moved {line : Line} {t : Shift} (inside : line ∈ s.first ++ s.second)
      (moves : s.Moves t line) : ∀ name ∈ (t.line line).written,
      ∀ v ∈ (s.registry registry).symbols.vars.lookup? name (t.line line).scope,
        v.scope ≠ .global := by
    intro name written v found
    rw [moves.scope_eq, fair.lookup?_swapped]
      at found
    obtain ⟨original, resolves, rfl⟩ := Option.mem_map.mp found
    exact mt scope_eq_global.mp (keeps line inside name written original resolves)
  intro line member
  simp only [Swap.swapped, List.mem_append, List.mem_map] at member
  rcases member with ⟨line, second, rfl⟩ | ⟨line, first, rfl⟩
  · exact moved (by simp [second]) (inSecond line second)
  · exact moved (by simp [first]) (inFirst line first)

theorem registry_swapped (fair : s.Fair registry) :
    s.swapped.registry (s.registry registry) = registry := by
  have again := fair.swapped.swapped.registered.recorded
  rw [swapped_swapped] at again
  exact again.unique fair.registered.recorded

theorem rules_iff (fair : s.Fair registry) (keeps : s.KeepsGlobals registry) :
    (registry.symbols.completed s.lines).Rules s.lines ↔
      ((s.registry registry).symbols.completed s.swapped.lines).Rules s.swapped.lines := by
  refine ⟨fair.rules_swapped keeps, fun rules => ?_⟩
  have back := fair.swapped.rules_swapped (fair.keepsGlobals_swapped keeps) rules
  rwa [swapped_swapped, fair.registry_swapped] at back

end Fair

end Swap

/-! ## Texts -/

section

variable {texts more : List String} {lines : List Line} {registry : Registry}

theorem verify_iff_rules (recorded : Recorded registry lines)
    (read : lines.map Line.tokens = tokenLists texts) :
    (∃ program, verify texts = .ok program) ↔ (registry.symbols.completed lines).Rules lines := by
  have fed := fed_of_recorded recorded read
  rw [← finish_decides_rules fed]
  simp only [verify_ok_iff, fed, Except.ok.injEq, exists_eq_left']

theorem lines_of_feedAll_append {verifier : Verifier} (begun : annotate texts = .ok lines)
    (fed : Verifier.feedAll {} (texts ++ more) = .ok verifier) :
    ∃ new, verifier.lines.toList = lines ++ new ∧ new.map Line.tokens = tokenLists more := by
  obtain ⟨middle, front, back⟩ := Verifier.feedAll_append_ok_iff.mp fed
  rw [annotate, front] at begun
  cases begun
  exact Verifier.feedAll_grown back

theorem read_of_annotate_append {new : List Line} (begun : annotate texts = .ok lines)
    (grown : annotate (texts ++ more) = .ok (lines ++ new)) :
    new.map Line.tokens = tokenLists more := by
  obtain ⟨_, -, read⟩ := annotate_ok_iff.mp begun
  obtain ⟨_, -, readAll⟩ := annotate_ok_iff.mp grown
  rw [List.map_append, tokenLists_append, read] at readAll
  exact List.append_cancel_left readAll

end

namespace Swap

/-- The lines of a swap are those of four texts. -/
structure Reads (s : Swap) (before first second after : List String) : Prop where
  before : s.before.map Line.tokens = tokenLists before
  first : s.first.map Line.tokens = tokenLists first
  second : s.second.map Line.tokens = tokenLists second
  after : s.after.map Line.tokens = tokenLists after

variable {s : Swap} {registry : Registry} {before first second after : List String}

theorem Reads.lines (reads : s.Reads before first second after) :
    s.lines.map Line.tokens = tokenLists (before ++ first ++ second ++ after) := by
  simp only [Swap.lines, List.map_append, tokenLists_append, reads.before, reads.first,
    reads.second, reads.after, List.append_assoc]

theorem Reads.swapped (reads : s.Reads before first second after) :
    s.swapped.Reads before second first after := by
  have moved (t : Shift) (lines : List Line) :
      (lines.map t.line).map Line.tokens = lines.map Line.tokens := by
    rw [List.map_map]
    rfl
  exact ⟨reads.before, (moved _ _).trans reads.second, (moved _ _).trans reads.first, reads.after⟩

theorem Reads.fair (reads : s.Reads before first second after)
    (few : (before ++ first ++ second ++ after).length < 2 ^ 32)
    (recorded : Recorded registry s.lines) (isMethod : IsMethod s.first)
    (isMethodToo : IsMethod s.second) : s.Fair registry := by
  refine ⟨recorded.registered, Nat.lt_of_le_of_lt ?_ few, isMethod, isMethodToo⟩
  rw [← List.length_map Line.tokens, reads.lines, tokenLists, List.length_map]
  exact List.length_filter_le _ _

theorem Reads.fed (reads : s.Reads before first second after) (fair : s.Fair registry) :
    Verifier.feedAll {} (before ++ first ++ second ++ after) = .ok ⟨registry, s.lines.toArray⟩ :=
  fed_of_recorded fair.registered.recorded reads.lines

theorem Fair.verify_iff (fair : s.Fair registry) (keeps : s.KeepsGlobals registry)
    (reads : s.Reads before first second after) :
    (∃ program, verify (before ++ first ++ second ++ after) = .ok program) ↔
      ∃ program, verify (before ++ second ++ first ++ after) = .ok program := by
  rw [verify_iff_rules fair.registered.recorded reads.lines,
    verify_iff_rules fair.swapped.registered.recorded reads.swapped.lines]
  exact fair.rules_iff keeps

end Swap

/-- Two methods that follow each other can be swapped if neither of them gives a value to a global
variable: the verifier accepts a program with them in one order exactly if it does so in the other.
-/
theorem methods_swap {before first second after : List String}
    {start firstLines secondLines : List Line}
    (few : (before ++ first ++ second ++ after).length < 2 ^ 32)
    (begun : annotate before = .ok start)
    (one : annotate (before ++ first) = .ok (start ++ firstLines))
    (both : annotate (before ++ first ++ second) = .ok (start ++ firstLines ++ secondLines))
    (isMethod : IsMethod firstLines) (isMethodToo : IsMethod secondLines)
    (keeps : ∀ complete, Verifier.feedAll {} (before ++ first ++ second ++ after) = .ok complete →
      KeepGlobals complete.registry.symbols.vars (firstLines ++ secondLines)) :
    (∃ program, verify (before ++ first ++ second ++ after) = .ok program) ↔
      ∃ program, verify (before ++ second ++ first ++ after) = .ok program := by
  let s (rest : List Line) : Swap := ⟨start, firstLines, secondLines, rest⟩
  obtain ⟨_, -, readStart⟩ := annotate_ok_iff.mp begun
  have readFirst := read_of_annotate_append begun one
  have readSecond := read_of_annotate_append one both
  have reads {rest : List Line} {texts : List String}
      (read : rest.map Line.tokens = tokenLists texts) :
      (s rest).Reads before first second texts := ⟨readStart, readFirst, readSecond, read⟩
  constructor
  · rintro ⟨program, accepted⟩
    obtain ⟨verifier, fed, -⟩ := verify_ok_iff.mp accepted
    obtain ⟨rest, grown, read⟩ := lines_of_feedAll_append both fed
    have recorded := Verifier.recorded_of_feedAll fed
    have split : verifier.lines.toList = (s rest).lines := by
      rw [grown]
      simp only [s, Swap.lines, List.append_assoc]
    rw [split] at recorded
    have fair := (reads read).fair few recorded isMethod isMethodToo
    exact (fair.verify_iff (keeps _ fed) (reads read)).mp ⟨program, accepted⟩
  · rintro ⟨program, accepted⟩
    obtain ⟨verifier, fed, -⟩ := verify_ok_iff.mp accepted
    -- The methods can be taken in in the other order, so the rest comes after them swapped.
    obtain ⟨registry, recorded, -⟩ := annotate_ok_iff.mp both
    have nothing : (s []).Reads before first second [] := reads rfl
    have alone : (s []).Fair registry := by
      refine nothing.fair ?_ ?_ isMethod isMethodToo
      · simp only [List.length_append, List.length_nil] at few ⊢
        omega
      · simpa [s, Swap.lines] using recorded
    have front : annotate (before ++ second ++ first) = .ok (s []).swapped.lines := by
      refine annotate_ok_iff.mpr ⟨_, alone.swapped.registered.recorded, ?_⟩
      simpa using nothing.swapped.lines
    obtain ⟨rest, grown, read⟩ := lines_of_feedAll_append front fed
    have recorded := Verifier.recorded_of_feedAll fed
    have split : verifier.lines.toList = (s rest).swapped.lines := by
      rw [grown]
      simp [s, Swap.lines, Swap.swapped]
    rw [split] at recorded
    have fair : (s rest).swapped.Fair verifier.registry := by
      refine (reads read).swapped.fair ?_ recorded alone.swapped.first alone.swapped.second
      simp only [List.length_append] at few ⊢
      omega
    have fair := fair.swapped
    rw [Swap.swapped_swapped] at fair
    exact (fair.verify_iff (keeps _ ((reads read).fed fair)) (reads read)).mpr ⟨program, accepted⟩

/-- Two methods with blocks of their own, of which the second calls the first. -/
theorem methods_swap_calls :
    (∃ program, verify (["int g = 1;"] ++
        ["void f(int a) \x7b", "if (a) \x7b", "int b = g;", "\x7d", "return;", "\x7d"] ++
        ["void h() \x7b", "if (g) \x7b", "f(g);", "\x7d", "return;", "\x7d"] ++
        ["void k() \x7b", "h();", "return;", "\x7d"]) = .ok program) ∧
      ∃ program, verify (["int g = 1;"] ++
        ["void h() \x7b", "if (g) \x7b", "f(g);", "\x7d", "return;", "\x7d"] ++
        ["void f(int a) \x7b", "if (a) \x7b", "int b = g;", "\x7d", "return;", "\x7d"] ++
        ["void k() \x7b", "h();", "return;", "\x7d"]) = .ok program := by
  have evaluated :
      let f := ["void f(int a) \x7b", "if (a) \x7b", "int b = g;", "\x7d", "return;", "\x7d"]
      let h := ["void h() \x7b", "if (g) \x7b", "f(g);", "\x7d", "return;", "\x7d"]
      let k := ["void k() \x7b", "h();", "return;", "\x7d"]
      (annotate ["int g = 1;"]).toOption.any (fun start =>
        (annotate (["int g = 1;"] ++ f)).toOption.any fun one =>
          (annotate (["int g = 1;"] ++ f ++ h)).toOption.any fun both =>
            (Verifier.feedAll {} (["int g = 1;"] ++ f ++ h ++ k)).toOption.any fun verifier =>
              verifier.finish.toBool && decide (one = start ++ one.drop 1) &&
                decide (both = start ++ one.drop 1 ++ both.drop 7) &&
                decide (IsMethod (one.drop 1)) && decide (IsMethod (both.drop 7)) &&
                decide (KeepGlobals verifier.registry.symbols.vars
                  (one.drop 1 ++ both.drop 7))) = true := by
    decide +kernel
  obtain ⟨start, begun, test⟩ := ok_of_any evaluated
  obtain ⟨one, first, test⟩ := ok_of_any test
  obtain ⟨both, second, test⟩ := ok_of_any test
  obtain ⟨verifier, fed, test⟩ := ok_of_any test
  simp only [Bool.and_eq_true, decide_eq_true_eq] at test
  obtain ⟨⟨⟨⟨⟨finished, splitOne⟩, splitBoth⟩, isMethod⟩, isMethodToo⟩, keeps⟩ := test
  obtain ⟨program, finished⟩ := ok_of_toBool finished
  rw [splitOne] at first
  rw [splitBoth] at second
  have accepted := verify_ok_iff.mpr ⟨verifier, fed, finished⟩
  refine ⟨⟨program, accepted⟩, (methods_swap (by decide) begun first second isMethod isMethodToo
    ?_).mp ⟨program, accepted⟩⟩
  intro complete again
  rw [fed] at again
  cases again
  exact keeps

end SJava
