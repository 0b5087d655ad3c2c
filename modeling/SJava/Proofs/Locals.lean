import SJava.Proofs.Blocks
import SJava.Proofs.Meaning

/-!
# Reads of local variables

A value that an accepted program reads from a local variable was put there before, in the same
block: either the variable is a parameter of the method whose body the line lies directly in, or the
first line of the whole program that assigns it is an earlier line of that block
(`local_read_assigned`). The check compares the scopes and numbers of lines. That equal scopes mean
the same block is a matter of the segments of blocks (`Recorded.blocksAround_eq`).
-/

namespace SJava

/-- A variable is a parameter of the method whose header stands at a place. -/
def ParameterOf (lines : List Line) (v : Variable) (place : Nat) : Prop :=
  ∃ header name parameters parameter, lines[place]? = some header ∧ header.kind = .methodHeader ∧
    header.header? = some (name, parameters) ∧ parameter ∈ parameters ∧
    v = parameter.toVariable header.number (header.scope.child (.method name))

/-- A line assigns to a variable. -/
def Line.Assigns (line : Line) (vars : VariableTable) (v : Variable) : Prop :=
  ∃ pair ∈ line.assignments, vars.lookup? pair.1.name line.scope = some v

/-- The line at a place is the first of a program that assigns to a variable. -/
def FirstAssignedAt (lines : List Line) (vars : VariableTable) (v : Variable) (place : Nat) :
    Prop :=
  (∃ line, lines[place]? = some line ∧ line.Assigns vars v) ∧
    ∀ earlier < place, ∀ line, lines[earlier]? = some line → ¬line.Assigns vars v

/-! ## Reads -/

theorem VariableTable.HasType.readable {vars : VariableTable} {line : Line} {value : Token}
    {type : ValueType} (typed : vars.HasType line value type)
    (isName : value.kind = .variableName) :
    ∃ v, vars.lookup? value.name line.scope = some v ∧
      v.isReadableAt line.number line.scope = true := by
  cases typed with
  | ofLiteral literal =>
      rw [isName] at literal
      cases literal
  | ofVariable _ visible readable => exact ⟨_, visible, readable⟩

theorem forall₂_right {α β : Type} {related : α → β → Prop} {xs : List α} {ys : List β} {y : β}
    (h : List.Forall₂ related xs ys) (member : y ∈ ys) : ∃ x ∈ xs, related x y := by
  induction h with
  | nil => cases member
  | cons here _ ih =>
      rcases List.mem_cons.mp member with rfl | member
      · exact ⟨_, List.mem_cons_self, here⟩
      · obtain ⟨x, inside, there⟩ := ih member
        exact ⟨x, List.mem_cons_of_mem _ inside, there⟩

/-- Wherever the rules hold, variables can be read where their values are. -/
theorem Symbols.Rules.readable {symbols : Symbols} {lines : List Line} {line : Line} {value : Token}
    (rules : symbols.Rules lines) (formed : line.WellFormed) (member : line ∈ lines)
    (read : value ∈ line.values) (isName : value.kind = .variableName) :
    ∃ v, symbols.vars.lookup? value.name line.scope = some v ∧
      v.isReadableAt line.number line.scope = true := by
  -- Three rules speak of values: for what is assigned, for arguments and for conditions.
  have assigned (assigns : line.kind.assigns = true) :
      ∃ v, symbols.vars.lookup? value.name line.scope = some v ∧
        v.isReadableAt line.number line.scope = true := by
    obtain ⟨name, pair⟩ := Line.assignment_of_value formed assigns read
    obtain ⟨_, _, _, typed, _⟩ := rules.values line member _ pair
    exact typed.readable isName
  have unread (h : ∀ kind, line.kind.leadsToValue kind = false) : value ∉ line.values := by
    rw [Line.values_eq_nil h]
    exact List.not_mem_nil
  cases kind : line.kind with
  | declaration | finalDeclaration | assignment => exact assigned (by rw [kind]; rfl)
  | methodCall =>
      obtain ⟨-, method, -, arguments⟩ := rules.calls line member kind
      obtain ⟨_, _, _, typed, _⟩ := forall₂_right arguments read
      exact typed.readable isName
  | ifHeader =>
      obtain ⟨_, typed, _⟩ := (rules.conditions line member (.inl kind)).2 value read isName
      exact typed.readable isName
  | whileHeader =>
      obtain ⟨_, typed, _⟩ := (rules.conditions line member (.inr kind)).2 value read isName
      exact typed.readable isName
  | methodHeader | methodReturn | closingBracket | comment =>
      exact absurd read (unread fun _ => by rw [kind]; rfl)

theorem Variable.isReadableAt_local {v : Variable} {number : UInt32} {scope : Scope}
    (readable : v.isReadableAt number scope = true) (isLocal : v.scope ≠ .global) :
    v.scope = scope ∧ ∃ place, v.initialization? = some place ∧ place.scope = scope ∧
      place.line < number := by
  rw [isReadableAt] at readable
  split at readable
  · cases readable
  · rename_i place initialized
    rw [if_neg (mt Scope.isGlobal_iff.mp isLocal)] at readable
    simp only [Bool.and_eq_true, beq_iff_eq, decide_eq_true_eq] at readable
    obtain ⟨⟨own, same⟩, earlier⟩ := readable
    exact ⟨own, place, initialized, same, earlier⟩

/-! ## First values -/

theorem declared_uninitialized {line : Line} {v : Variable} (member : v ∈ line.declared) :
    v.initialization? = none := by
  rw [Line.declared] at member
  split at member
  · cases member
  · split at member
    · cases member
    · obtain ⟨name, -, rfl⟩ := List.mem_map.mp member
      rfl

theorem ParameterOf.append {lines : List Line} {line : Line} {v : Variable} {place : Nat}
    (h : ParameterOf lines v place) : ParameterOf (lines ++ [line]) v place := by
  obtain ⟨header, name, parameters, parameter, found, rest⟩ := h
  refine ⟨header, name, parameters, parameter, ?_, rest⟩
  rwa [List.getElem?_append_left (List.getElem?_eq_some_iff.mp found).1]

theorem Recorded.parameter_of_initialized {registry : Registry} {lines : List Line} {v : Variable}
    (h : Recorded registry lines) (member : v ∈ registry.symbols.vars.records)
    (initialized : v.initialization?.isSome = true) : ∃ place, ParameterOf lines v place := by
  induction h with
  | start => cases member
  | @line registry next lines line before number form takes ih =>
      have earlier (member : v ∈ registry.symbols.vars.records) :
          ∃ place, ParameterOf (lines ++ [line]) v place := by
        obtain ⟨place, parameter⟩ := ih member
        exact ⟨place, parameter.append⟩
      cases takes with
      | declaration _ _ declared =>
          rw [VariableTable.declareAll_ok declared, List.mem_append] at member
          rcases member with member | member
          · exact earlier member
          · rw [declared_uninitialized member] at initialized
            cases initialized
      | @method name parameters _ _ kind scope header _ declared =>
          rw [VariableTable.declareAll_ok declared, List.mem_append] at member
          rcases member with member | member
          · exact earlier member
          · obtain ⟨parameter, inHeader, rfl⟩ := List.mem_map.mp member
            refine ⟨lines.length, line, name, parameters, parameter, ?_, kind, header, inHeader, ?_⟩
            · exact List.getElem?_concat_length
            · rw [scope]
      | ifBlock | whileBlock | close | other => exact earlier member

theorem assigns_iff_hits {line : Line} {vars : VariableTable} {writes : List Write} {name : String}
    {scope : Scope} {v : Variable} (formed : line.WellFormed)
    (resolves : vars.lookup? name scope = some v) :
    line.Assigns (vars.given writes) (vars.valued writes v) ↔
      ∃ write ∈ line.writes, vars.hits v write = true := by
  constructor
  · intro holds
    obtain ⟨pair, assigned, visible⟩ := holds
    rw [VariableTable.lookup?_given, Option.map_eq_some_iff] at visible
    obtain ⟨target, found, same⟩ := visible
    have names := congrArg Variable.name same
    have scopes := congrArg Variable.scope same
    refine ⟨(pair.1.name, ⟨line.number, line.scope⟩), ?_, ?_⟩
    · rw [Line.writes, Line.written_eq formed, List.map_map]
      exact List.mem_map.mpr ⟨pair, assigned, rfl⟩
    · exact VariableTable.hits_iff.mpr ⟨target, found, names.symm, scopes.symm⟩
  · intro holds
    obtain ⟨write, written, hit⟩ := holds
    rw [Line.writes, Line.written_eq formed, List.map_map] at written
    obtain ⟨pair, assigned, rfl⟩ := List.mem_map.mp written
    obtain ⟨target, found, key⟩ := VariableTable.hits_iff.mp hit
    refine ⟨pair, assigned, ?_⟩
    rw [VariableTable.lookup?_given, VariableTable.lookup?_eq_of_key resolves found key]
    exact congrArg (Option.map (vars.valued writes)) found

/-! ## Locals -/

section Locals

variable {registry : Registry} {lines : List Line} {line : Line} {place : Nat} {v : Variable}
  {origin : Initialization}

theorem ParameterOf.initialized (parameter : ParameterOf lines v place) :
    ∃ header, lines[place]? = some header ∧
      v.initialization?.map Initialization.line = some header.number := by
  obtain ⟨header, _, _, _, found, -, -, -, rfl⟩ := parameter
  exact ⟨header, found, rfl⟩

theorem ParameterOf.blockOf?_eq (h : Recorded registry lines) (few : lines.length < 2 ^ 32)
    {block : Nat} (parameter : ParameterOf lines v block) (stored : lines[place]? = some line)
    (own : v.scope = line.scope) : blockOf? lines place = some block := by
  obtain ⟨header, name, parameters, _, found, kind, named, -, rfl⟩ := parameter
  have opens : header.kind.opens = true := by
    rw [kind]
    rfl
  apply h.blockOf?_eq few stored found opens
  rw [segmentAt, found]
  simp only [segmentAfter, kind, named]
  exact own.symm

/-- A variable that has a value before the pass for first values is a parameter, and keeps it. -/
theorem read_parameter (h : Recorded registry lines) (few : lines.length < 2 ^ 32)
    (stored : lines[place]? = some line) (member : v ∈ registry.symbols.vars.records)
    (initialized : v.initialization? = some origin) (own : v.scope = line.scope)
    (earlier : origin.line < line.number) :
    ∃ first < place, ParameterOf lines v first ∧ blockOf? lines place = some first := by
  obtain ⟨first, parameter⟩ := h.parameter_of_initialized member (by rw [initialized]; rfl)
  obtain ⟨header, found, number⟩ := parameter.initialized
  rw [initialized, Option.map_some, Option.some_inj] at number
  refine ⟨first, ?_, parameter, parameter.blockOf?_eq h few stored own⟩
  apply h.lt_of_number_lt few found stored
  rwa [← number]

theorem firstAssigned_of_firstValue {vars : VariableTable} {name : String} {scope : Scope}
    (h : Recorded registry lines) (found : vars.lookup? name scope = some v)
    (firstValue : vars.firstValue? (lines.flatMap Line.writes) v = some origin) :
    ∃ (first : Nat) (writer : Line), lines[first]? = some writer ∧
      origin = ⟨writer.number, writer.scope⟩ ∧
      FirstAssignedAt lines (vars.given (lines.flatMap Line.writes))
        (vars.valued (lines.flatMap Line.writes) v) first := by
  obtain ⟨first, writer, foundWriter, place, written, unwritten⟩ :=
    VariableTable.firstValue?_some firstValue
  have formed {i : Nat} {line : Line} (stored : lines[i]? = some line) : line.WellFormed :=
    h.wellFormed line (List.mem_of_getElem? stored)
  have here : writer.Assigns (vars.given (lines.flatMap Line.writes))
      (vars.valued (lines.flatMap Line.writes) v) :=
    (assigns_iff_hits (formed foundWriter) found).mpr written
  refine ⟨first, writer, foundWriter, place, ⟨writer, foundWriter, here⟩, ?_⟩
  intro i order line foundLine assigns
  rw [assigns_iff_hits (formed foundLine) found] at assigns
  obtain ⟨write, inLine, hit⟩ := assigns
  rw [unwritten i order line foundLine write inLine] at hit
  cases hit

/-- Any other variable has its value from the first line that assigns it. -/
theorem read_assigned {vars : VariableTable} {name : String} {scope : Scope}
    (h : Recorded registry lines) (few : lines.length < 2 ^ 32)
    (stored : lines[place]? = some line) (found : vars.lookup? name scope = some v)
    (firstValue : vars.firstValue? (lines.flatMap Line.writes) v = some origin)
    (same : origin.scope = line.scope) (earlier : origin.line < line.number) :
    ∃ first < place,
      FirstAssignedAt lines (vars.given (lines.flatMap Line.writes))
        (vars.valued (lines.flatMap Line.writes) v) first ∧
      (∃ writer, lines[first]? = some writer ∧ writer.scope = line.scope) ∧
      blockOf? lines first = blockOf? lines place := by
  obtain ⟨first, writer, foundWriter, rfl, assigned⟩ :=
    firstAssigned_of_firstValue h found firstValue
  refine ⟨first, h.lt_of_number_lt few foundWriter stored earlier, assigned,
    ⟨writer, foundWriter, same⟩, ?_⟩
  rw [blockOf?, blockOf?, h.blocksAround_eq few foundWriter stored same]

/-- Every local variable that an accepted program reads is one of its own block. It is a parameter
of the method whose body the line lies directly in, or the first line of the program that assigns
it is an earlier line of the same block. -/
theorem local_read_assigned {texts : List String} {program : Program} {value : Token}
    (accepted : verify texts = .ok program) (few : program.lines.length < 2 ^ 32)
    (stored : program.lines[place]? = some line) (read : value ∈ line.values)
    (isName : value.kind = .variableName)
    (resolves : program.symbols.vars.lookup? value.name line.scope = some v)
    (isLocal : v.scope ≠ .global) :
    v.scope = line.scope ∧ ∃ first < place,
      (ParameterOf program.lines v first ∧ blockOf? program.lines place = some first) ∨
      (FirstAssignedAt program.lines program.symbols.vars v first ∧
        (∃ writer, program.lines[first]? = some writer ∧ writer.scope = line.scope) ∧
        blockOf? program.lines first = blockOf? program.lines place) := by
  obtain ⟨verifier, fed, finished⟩ := verify_ok_iff.mp accepted
  have recorded := Verifier.recorded_of_feedAll fed
  obtain ⟨same, -, rules⟩ := Verifier.rules_of_finish recorded finished
  have vars := Verifier.vars_of_finish finished
  rw [← same] at recorded
  have member := List.mem_of_getElem? stored
  obtain ⟨_, visible, readable⟩ :=
    rules.readable (recorded.wellFormed line member) member read isName
  rw [resolves] at visible
  cases visible
  obtain ⟨own, origin, initialized, sameScope, earlier⟩ := v.isReadableAt_local readable isLocal
  -- The record before the pass tells where its value comes from.
  rw [vars, VariableTable.lookup?_given, Option.map_eq_some_iff] at resolves
  obtain ⟨declared, found, rfl⟩ := resolves
  refine ⟨own, ?_⟩
  cases initial : declared.initialization? with
  | some =>
      have unchanged : verifier.registry.symbols.vars.valued (program.lines.flatMap Line.writes)
          declared = declared := by
        rw [VariableTable.valued, initial, Option.some_or, ← initial]
      rw [unchanged] at own initialized ⊢
      obtain ⟨first, order, parameter⟩ := read_parameter recorded few stored
        (VariableTable.lookup?_mem found) initialized own earlier
      exact ⟨first, order, .inl parameter⟩
  | none =>
      rw [VariableTable.valued, initial, Option.none_or] at initialized
      obtain ⟨first, order, assigned⟩ :=
        read_assigned recorded few stored found initialized sameScope earlier
      exact ⟨first, order, .inr (by rwa [vars])⟩

end Locals

/-- A local that another local gave its value is read in the block of both. -/
theorem local_read_assigned_chain :
    ∃ program line v, verify ["void f(int a) \x7b", "int b = a;", "int c = b;", "return;", "\x7d"] =
        .ok program ∧ program.lines[2]? = some line ∧
      program.symbols.vars.lookup? "b" line.scope = some v ∧ v.scope = line.scope ∧
      ∃ first < 2, (ParameterOf program.lines v first ∧ blockOf? program.lines 2 = some first) ∨
        (FirstAssignedAt program.lines program.symbols.vars v first ∧
          (∃ writer, program.lines[first]? = some writer ∧ writer.scope = line.scope) ∧
          blockOf? program.lines first = blockOf? program.lines 2) := by
  have evaluated : (verify ["void f(int a) \x7b", "int b = a;", "int c = b;", "return;",
      "\x7d"]).toOption.any (fun program =>
        decide (program.lines.length < 2 ^ 32) && program.lines[2]?.any fun line =>
          line.values == [⟨.variableName, some "b"⟩] &&
            (program.symbols.vars.lookup? "b" line.scope).any (!·.scope.isGlobal)) = true := by
    decide +kernel
  obtain ⟨program, accepted, test⟩ := ok_of_any evaluated
  obtain ⟨few, test⟩ := Bool.and_eq_true_iff.mp test
  obtain ⟨line, stored, test⟩ := (Option.any_eq_true _ _).mp test
  obtain ⟨values, test⟩ := Bool.and_eq_true_iff.mp test
  obtain ⟨v, resolves, isLocal⟩ := (Option.any_eq_true _ _).mp test
  have read : ⟨.variableName, some "b"⟩ ∈ line.values := by
    rw [beq_iff_eq.mp values]
    exact List.mem_singleton_self _
  have outside : v.scope ≠ .global := by
    rw [ne_eq, ← Scope.isGlobal_iff]
    simpa using isLocal
  exact ⟨program, line, v, accepted, stored, resolves,
    local_read_assigned accepted (of_decide_eq_true few) stored read rfl resolves outside⟩

end SJava
