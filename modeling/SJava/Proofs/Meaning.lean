import SJava.Proofs.Acceptance
import SJava.Proofs.FirstValues
import SJava.Proofs.Values

/-!
# The rules of meaning

The final check of a program, against rules that are said of its lines by the places of their tokens
(`Symbols.Rules`). Each rule of a kind of line is what the check of such lines decides
(`checkDeclaration_ok` and the others), and the walk over the lines adds the kind of the line
before. The pass for first values comes before all of them. It refuses only what the rules refuse
too, since every name that a line writes is the target of one of its assignments (`written_eq`).
-/

namespace SJava

namespace Symbols

/-- The symbols of a program once its variables have their first values. -/
def completed (symbols : Symbols) (lines : List Line) : Symbols :=
  { symbols with vars := (symbols.vars.assignLines lines).1 }

/-- What the lines of a program have to obey. -/
structure Rules (symbols : Symbols) (lines : List Line) : Prop where
  targets : ∀ line ∈ lines, line.kind = .assignment →
    ∃ v, symbols.vars.lookup? line.subject line.scope = some v ∧ v.isFinal = false
  values : ∀ line ∈ lines, ∀ pair ∈ line.assignments,
    symbols.vars.Fits line pair.1.name pair.2
  calls : ∀ line ∈ lines, line.kind = .methodCall →
    line.scope ≠ .global ∧ ∃ method, symbols.methods.find? line.subject = some method ∧
      List.Forall₂ (fun slot value =>
        ∃ type, symbols.vars.HasType line value type ∧ slot.accepts type = true)
          method.parameters line.values
  conditions : ∀ line ∈ lines, line.kind = .ifHeader ∨ line.kind = .whileHeader →
    line.scope ≠ .global ∧ ∀ atom ∈ line.values, atom.kind = .variableName →
      ∃ type, symbols.vars.HasType line atom type ∧
        (type = .int ∨ type = .double ∨ type = .boolean)
  headers : ∀ line ∈ lines, line.kind = .methodHeader → line.scope = .global
  returns : ∀ line ∈ lines, line.kind = .methodReturn → line.scope ≠ .global
  closings : ∀ before line after, lines = before ++ line :: after →
    line.kind = .closingBracket → line.scope = .global →
      ∃ previous, before.getLast? = some previous ∧ previous.kind = .methodReturn
  ending : ∀ last, lines.getLast? = some last → last.scope = .global

end Symbols

/-! ## Checks of single lines -/

namespace Line

variable {line : Line} {symbols : Symbols} {vars : VariableTable} {previous : Option LineKind}

theorem checkDeclaration_ok (formed : line.WellFormed)
    (kind : line.kind = .declaration ∨ line.kind = .finalDeclaration) :
    line.checkDeclaration vars = .ok () ↔
      ∀ pair ∈ line.assignments, vars.Fits line pair.1.name pair.2 := by
  have assigns : line.kind.assigns = true := by rcases kind with kind | kind <;> rw [kind] <;> rfl
  have opening : line.kind.opening ≠ .name := by
    rcases kind with kind | kind <;> rw [kind] <;> exact nofun
  rw [← read_initializers_ok formed assigns opening, checkDeclaration, bind_eq_ok]
  constructor
  · exact fun ⟨final, read, _⟩ => ⟨final, read⟩
  · exact fun ⟨final, read⟩ => ⟨final, read, rfl⟩

theorem assignment_shape (formed : line.WellFormed) (kind : line.kind = .assignment) :
    ∃ name equals value semicolon, line.tokens = [name, equals, value, semicolon] ∧
      name.kind = .variableName ∧ equals.kind = .equals ∧ value.kind.isValue = true ∧
      semicolon.kind = .semicolon := by
  have sentence := formed.sentence
  obtain ⟨name, rest, shape, start⟩ := formed.begun
  rw [kind, shape, List.map_cons, LineKind.cons_mem_sentences] at sentence
  have named : name.kind = .variableName := by simpa [LineKind.begins] using sentence.1
  have completion : rest.map Token.kind ∈ Sentence.afterInAssignment .name := sentence.2
  rcases rest with _ | ⟨equals, _ | ⟨value, _ | ⟨semicolon, more⟩⟩⟩
  · simp [Sentence.afterInAssignment] at completion
  · simp [Sentence.afterInAssignment, Sentence.value] at completion
  · simp [Sentence.afterInAssignment, Sentence.value, Sentence.semicolon] at completion
  · simp [Sentence.afterInAssignment, Sentence.value, Sentence.semicolon] at completion
    obtain ⟨isEquals, isValue, isSemicolon, rfl⟩ := completion
    exact ⟨name, equals, value, semicolon, shape, named, isEquals, isValue, isSemicolon⟩

theorem visitAssigned_ok {target : Variable} {value : Token} (isValue : value.kind.isValue = true) :
    line.visitAssigned vars target .value value = .ok () ↔
      ∃ type, vars.HasType line value type ∧ target.type.accepts type = true := by
  rw [visitAssigned, bind_eq_ok]
  simp only [VariableTable.valueType_ok isValue]
  constructor
  · intro holds
    obtain ⟨type, typed, accepted⟩ := holds
    split at accepted
    · rename_i accepts
      exact ⟨type, typed, accepts⟩
    · cases accepted
  · intro holds
    obtain ⟨type, typed, accepts⟩ := holds
    refine ⟨type, typed, ?_⟩
    rw [if_pos accepts]
    rfl

/-- An assignment reads one value, and gives it to the name that it begins with. -/
theorem assignment_places (formed : line.WellFormed) (kind : line.kind = .assignment) :
    ∃ name value, line.subject = name.name ∧ line.values = [value] ∧
      line.assignments = [(name, value)] ∧ value.kind.isValue = true := by
  obtain ⟨name, equals, value, semicolon, shape, named, isEquals, isValue, isSemicolon⟩ :=
    assignment_shape formed kind
  have notEquals : value.kind ≠ .equals := by
    intro sign
    rw [sign] at isValue
    cases isValue
  refine ⟨name, value, ?_, ?_, ?_, isValue⟩
  · rw [subject, shape]
    rfl
  · rw [values, shape, kind, valuesAfter_of_other (by simp [LineKind.leadsToValue, named]),
      valuesAfter_of_value (by simp [LineKind.leadsToValue, isEquals, isValue]),
      valuesAfter_of_other (by simp [isSemicolon, TokenKind.isValue, TokenKind.isLiteral]),
      valuesAfter_singleton]
  · have assigns : LineKind.assignment.assigns = true := rfl
    rw [assignments, kind, if_pos assigns, shape, assignmentsIn_of_equals isEquals,
      assignmentsIn_of_other notEquals]
    rfl

theorem checkAssignment_ok (formed : line.WellFormed) (kind : line.kind = .assignment) :
    line.checkAssignment vars = .ok () ↔
      (∃ v, vars.lookup? line.subject line.scope = some v ∧ v.isFinal = false) ∧
        ∀ pair ∈ line.assignments, vars.Fits line pair.1.name pair.2 := by
  obtain ⟨name, value, subject, values, assignments, isValue⟩ := assignment_places formed kind
  have reads (target : Variable) :
      line.read (fun _ => line.visitAssigned vars target) () = .ok () ↔
        ∃ type, vars.HasType line value type ∧ target.type.accepts type = true := by
    rw [read_eq_foldlM formed (by simp [kind])
      (fun _ role token other => by cases role <;> first | rfl | exact absurd rfl other), values,
      foldlM_check_ok, List.forall_mem_singleton, visitAssigned_ok isValue]
  rw [checkAssignment, bind_eq_ok, assignments, List.forall_mem_singleton, ← subject]
  simp only [VariableTable.resolve_ok]
  constructor
  · intro ok
    obtain ⟨target, visible, passed⟩ := ok
    split at passed
    · cases passed
    · rename_i fixed
      obtain ⟨type, typed, accepts⟩ := (reads target).mp passed
      exact ⟨⟨target, visible, by simpa using fixed⟩, target, type, visible, typed, accepts⟩
  · intro holds
    obtain ⟨⟨target, visible, fixed⟩, found, type, again, typed, accepts⟩ := holds
    rw [visible] at again
    cases again
    refine ⟨target, visible, ?_⟩
    rw [if_neg (by simp [fixed])]
    apply (reads target).mpr
    exact ⟨type, typed, accepts⟩

theorem resolve_ok {methods : MethodTable} {name : String} {method : Method} :
    methods.resolve name = .ok method ↔ methods.find? name = some method := by
  rw [MethodTable.resolve]
  cases methods.find? name <;> simp

theorem checkArguments_ok {method : String} {position : Nat} {slots types : List ValueType}
    (length : types.length = slots.length) :
    checkArguments method position slots types = .ok () ↔
      List.Forall₂ (fun slot type => slot.accepts type = true) slots types := by
  induction slots generalizing position types with
  | nil =>
      cases List.eq_nil_of_length_eq_zero length
      exact iff_of_true rfl .nil
  | cons slot slots ih =>
      cases types with
      | nil => cases length
      | cons type types =>
          rw [checkArguments, List.forall₂_cons]
          split
          · rename_i accepts
            rw [ih (Nat.succ.inj length), and_iff_right accepts]
          · rename_i refuses
            exact iff_of_false nofun fun all => refuses all.1

theorem forall₂_through {α β γ : Type} {gives : α → β → Prop} {takes : γ → β → Prop}
    {givers : List α} {takers : List γ} :
    (∃ middle, List.Forall₂ gives givers middle ∧ List.Forall₂ takes takers middle) ↔
      List.Forall₂ (fun taker giver => ∃ value, gives giver value ∧ takes taker value)
        takers givers := by
  constructor
  · intro holds
    obtain ⟨middle, given, taken⟩ := holds
    induction given generalizing takers with
    | nil =>
        cases taken
        exact .nil
    | cons gives _ ih =>
        cases taken with
        | cons takes taken => exact .cons ⟨_, gives, takes⟩ (ih taken)
  · intro pairs
    induction pairs with
    | nil => exact ⟨[], .nil, .nil⟩
    | cons pair _ ih =>
        obtain ⟨value, gives, takes⟩ := pair
        obtain ⟨middle, given, taken⟩ := ih
        exact ⟨value :: middle, .cons gives given, .cons takes taken⟩

theorem read_arguments_ok {types : List ValueType} (formed : line.WellFormed)
    (kind : line.kind = .methodCall) :
    line.read (line.visitArgument vars) [] = .ok types ↔
      List.Forall₂ (vars.HasType line) line.values types := by
  have typed (value : Token) (member : value ∈ line.values) (type : ValueType) :
      vars.valueType line value = .ok type ↔ vars.HasType line value type :=
    VariableTable.valueType_ok (isValue_of_mem_valuesAfter member)
  rw [read_eq_foldlM formed (by simp [kind])
    (fun _ role token other => by cases role <;> first | rfl | exact absurd rfl other)]
  refine (foldlM_collect_ok typed).trans ?_
  simp only [List.nil_append, exists_eq_left']

theorem checkCall_ok (formed : line.WellFormed) (kind : line.kind = .methodCall) :
    line.checkCall symbols = .ok () ↔
      line.scope ≠ .global ∧ ∃ method, symbols.methods.find? line.subject = some method ∧
        List.Forall₂ (fun slot value =>
          ∃ type, symbols.vars.HasType line value type ∧ slot.accepts type = true)
            method.parameters line.values := by
  rw [ne_eq, ← Scope.isGlobal_iff, checkCall]
  by_cases outside : line.scope.isGlobal = true
  · rw [if_pos outside]
    exact iff_of_false nofun fun passed => passed.1 outside
  · rw [if_neg outside, and_iff_right outside, bind_eq_ok]
    simp only [resolve_ok, bind_eq_ok, read_arguments_ok formed kind, ← forall₂_through]
    constructor
    · intro holds
      obtain ⟨method, known, types, typed, passed⟩ := holds
      split at passed
      · cases passed
      · rename_i same
        exact ⟨method, known, types, typed, (checkArguments_ok (not_not.mp same)).mp passed⟩
    · intro holds
      obtain ⟨method, known, types, typed, accepted⟩ := holds
      refine ⟨method, known, types, typed, ?_⟩
      have same : types.length = method.parameters.length := accepted.length_eq.symm
      rw [if_neg (not_not.mpr same)]
      exact (checkArguments_ok same).mpr accepted

theorem isCondition_iff {type : ValueType} :
    type.isCondition = true ↔ type = .int ∨ type = .double ∨ type = .boolean := by
  cases type <;> simp [ValueType.isCondition]

theorem visitAtom_ok {atom : Token} :
    line.visitAtom vars .value atom = .ok () ↔
      (atom.kind = .variableName → ∃ type, vars.HasType line atom type ∧
        (type = .int ∨ type = .double ∨ type = .boolean)) := by
  rw [visitAtom]
  by_cases named : atom.kind = .variableName
  · rw [if_pos named, bind_eq_ok]
    simp only [VariableTable.resolve_ok]
    constructor
    · rintro ⟨v, visible, passed⟩ -
      split at passed
      · cases passed
      · rename_i condition
        refine ⟨v.type, .ofVariable named visible (VariableTable.checkReadable_ok.mp passed), ?_⟩
        exact isCondition_iff.mp (by simpa using condition)
    · intro passed
      obtain ⟨type, typed, condition⟩ := passed named
      cases typed with
      | ofLiteral literal _ =>
          rw [named] at literal
          cases literal
      | ofVariable _ visible readable =>
          refine ⟨_, visible, ?_⟩
          rw [if_neg (by simp [isCondition_iff.mpr condition])]
          exact VariableTable.checkReadable_ok.mpr readable
  · rw [if_neg named]
    exact iff_of_true rfl fun isName => absurd isName named

theorem checkCondition_ok (formed : line.WellFormed)
    (kind : line.kind = .ifHeader ∨ line.kind = .whileHeader) :
    line.checkCondition vars = .ok () ↔
      line.scope ≠ .global ∧ ∀ atom ∈ line.values, atom.kind = .variableName →
        ∃ type, vars.HasType line atom type ∧
          (type = .int ∨ type = .double ∨ type = .boolean) := by
  have reads : line.read (fun _ => line.visitAtom vars) () = .ok () ↔
      ∀ atom ∈ line.values, atom.kind = .variableName →
        ∃ type, vars.HasType line atom type ∧
          (type = .int ∨ type = .double ∨ type = .boolean) := by
    rw [read_eq_foldlM formed (by rcases kind with kind | kind <;> simp [kind])
      (fun _ role token other => by cases role <;> first | rfl | exact absurd rfl other),
      foldlM_check_ok]
    simp only [visitAtom_ok]
  rw [← reads, ne_eq, ← Scope.isGlobal_iff, checkCondition]
  split
  · rename_i outside
    exact iff_of_false nofun fun passed => passed.1 outside
  · rename_i inside
    rw [and_iff_right inside]

theorem checkHeader_ok : line.checkHeader = .ok () ↔ line.scope = .global := by
  rw [checkHeader, ← Scope.isGlobal_iff]
  split <;> simp_all

theorem checkReturn_ok : line.checkReturn = .ok () ↔ line.scope ≠ .global := by
  rw [checkReturn, ne_eq, ← Scope.isGlobal_iff]
  split <;> simp_all

theorem checkClosing_ok :
    line.checkClosing previous = .ok () ↔
      (line.scope = .global → previous = some .methodReturn) := by
  rw [checkClosing, ← Scope.isGlobal_iff]
  split <;> simp_all

end Line

/-! ## Checks of whole programs -/

namespace Symbols

variable {symbols : Symbols} {lines : List Line}

theorem kindBefore_none {before : List Line} {kind : LineKind} :
    kindBefore none before = some kind ↔
      ∃ previous, before.getLast? = some previous ∧ previous.kind = kind := by
  rw [kindBefore, Option.or_none, Option.map_eq_some_iff]

theorem rules_of_checked (formed : ∀ line ∈ lines, line.WellFormed)
    (walked : symbols.checkLines none lines = .ok ()) (ended : checkEnd lines = .ok ()) :
    symbols.Rules lines := by
  have checked := checkLines_ok_iff.mp walked
  -- Only the rule for closing brackets looks at the line before.
  have checkedAlone (line : Line) (member : line ∈ lines) :
      ∃ previous, line.checkMeaning previous symbols = .ok () := by
    obtain ⟨before, after, split⟩ := List.append_of_mem member
    exact ⟨_, checked before line after split⟩
  exact
    { targets := by
        intro line member kind
        obtain ⟨_, passed⟩ := checkedAlone line member
        rw [Line.checkMeaning, kind] at passed
        exact ((Line.checkAssignment_ok (formed line member) kind).mp passed).1
      values := by
        intro line member
        obtain ⟨_, passed⟩ := checkedAlone line member
        rw [Line.checkMeaning] at passed
        cases kind : line.kind with
        | declaration =>
            rw [kind] at passed
            exact (Line.checkDeclaration_ok (formed line member) (.inl kind)).mp passed
        | finalDeclaration =>
            rw [kind] at passed
            exact (Line.checkDeclaration_ok (formed line member) (.inr kind)).mp passed
        | assignment =>
            rw [kind] at passed
            exact ((Line.checkAssignment_ok (formed line member) kind).mp passed).2
        | _ => simp [Line.assignments, kind, LineKind.assigns]
      calls := by
        intro line member kind
        obtain ⟨_, passed⟩ := checkedAlone line member
        rw [Line.checkMeaning, kind] at passed
        exact (Line.checkCall_ok (formed line member) kind).mp passed
      conditions := by
        intro line member kind
        obtain ⟨_, passed⟩ := checkedAlone line member
        have condition : line.checkCondition symbols.vars = .ok () := by
          rcases kind with kind | kind <;> rwa [Line.checkMeaning, kind] at passed
        exact (Line.checkCondition_ok (formed line member) kind).mp condition
      headers := by
        intro line member kind
        obtain ⟨_, passed⟩ := checkedAlone line member
        rw [Line.checkMeaning, kind] at passed
        exact Line.checkHeader_ok.mp passed
      returns := by
        intro line member kind
        obtain ⟨_, passed⟩ := checkedAlone line member
        rw [Line.checkMeaning, kind] at passed
        exact Line.checkReturn_ok.mp passed
      closings := by
        intro before line after split kind outside
        have passed := checked before line after split
        rw [Line.checkMeaning, kind] at passed
        exact kindBefore_none.mp (Line.checkClosing_ok.mp passed outside)
      ending := checkEnd_ok_iff.mp ended }

theorem checked_of_rules (formed : ∀ line ∈ lines, line.WellFormed) (rules : symbols.Rules lines) :
    symbols.checkLines none lines = .ok () ∧ checkEnd lines = .ok () := by
  refine ⟨checkLines_ok_iff.mpr fun before line after split => ?_, checkEnd_ok_iff.mpr rules.ending⟩
  have member : line ∈ lines := by simp [split]
  have wellFormed := formed line member
  rw [Line.checkMeaning]
  cases kind : line.kind with
  | declaration =>
      exact (Line.checkDeclaration_ok wellFormed (.inl kind)).mpr (rules.values line member)
  | finalDeclaration =>
      exact (Line.checkDeclaration_ok wellFormed (.inr kind)).mpr (rules.values line member)
  | assignment =>
      exact (Line.checkAssignment_ok wellFormed kind).mpr
        ⟨rules.targets line member kind, rules.values line member⟩
  | methodHeader => exact Line.checkHeader_ok.mpr (rules.headers line member kind)
  | methodCall => exact (Line.checkCall_ok wellFormed kind).mpr (rules.calls line member kind)
  | ifHeader =>
      exact (Line.checkCondition_ok wellFormed (.inl kind)).mpr
        (rules.conditions line member (.inl kind))
  | whileHeader =>
      exact (Line.checkCondition_ok wellFormed (.inr kind)).mpr
        (rules.conditions line member (.inr kind))
  | methodReturn => exact Line.checkReturn_ok.mpr (rules.returns line member kind)
  | closingBracket =>
      exact Line.checkClosing_ok.mpr fun outside =>
        kindBefore_none.mpr (rules.closings before line after split kind outside)
  | comment => rfl

/-- Where the rules hold, no name is assigned that stands for nothing. -/
theorem assigned_of_rules (formed : ∀ line ∈ lines, line.WellFormed)
    (rules : (symbols.completed lines).Rules lines) :
    (symbols.vars.assignLines lines).2 = .ok () := by
  rw [VariableTable.assignLines_ok_iff]
  intro write member
  obtain ⟨line, stored, written⟩ := List.mem_flatMap.mp member
  obtain ⟨name, named, rfl⟩ := List.mem_map.mp written
  rw [Line.written_eq (formed line stored)] at named
  obtain ⟨pair, assigned, rfl⟩ := List.mem_map.mp named
  -- The rules find the name in the completed table, which knows the same names as the first.
  obtain ⟨target, _, visible, _⟩ := rules.values line stored pair assigned
  have seen : (symbols.completed lines).vars.sees
      (pair.1.name, ⟨line.number, line.scope⟩) = true := by
    rw [VariableTable.sees, visible]
    rfl
  rwa [completed, VariableTable.assignLines_fst, VariableTable.sees_given] at seen

end Symbols

theorem Verifier.rules_of_finish {verifier : Verifier} {program : Program}
    (recorded : Recorded verifier.registry verifier.lines.toList)
    (finished : verifier.finish = .ok program) :
    program.lines = verifier.lines.toList ∧
      program.symbols = verifier.registry.symbols.completed program.lines ∧
      program.symbols.Rules program.lines := by
  obtain ⟨stored, checked⟩ := finish_ok_iff.mp finished
  obtain ⟨vars, assigned, complete, walked, ended⟩ := Symbols.check_ok_iff.mp checked
  have formed : ∀ line ∈ program.lines, line.WellFormed := stored ▸ recorded.wellFormed
  refine ⟨stored, ?_, Symbols.rules_of_checked formed walked ended⟩
  rw [complete, Symbols.completed, assigned]

theorem Verifier.vars_of_finish {verifier : Verifier} {program : Program}
    (finished : verifier.finish = .ok program) :
    program.symbols.vars =
      verifier.registry.symbols.vars.given (program.lines.flatMap Line.writes) := by
  obtain ⟨_, checked⟩ := finish_ok_iff.mp finished
  obtain ⟨vars, assigned, complete, -⟩ := Symbols.check_ok_iff.mp checked
  rw [complete, VariableTable.assignLines_eq assigned]

/-- Once all lines of a program have been taken in, the final check accepts it exactly if its lines
obey the rules. -/
theorem finish_decides_rules {texts : List String} {verifier : Verifier}
    (fed : Verifier.feedAll {} texts = .ok verifier) :
    (∃ program, verifier.finish = .ok program) ↔
      (verifier.registry.symbols.completed verifier.lines.toList).Rules verifier.lines.toList := by
  have recorded := Verifier.recorded_of_feedAll fed
  constructor
  · intro holds
    obtain ⟨program, finished⟩ := holds
    obtain ⟨stored, complete, rules⟩ := Verifier.rules_of_finish recorded finished
    rwa [complete, stored] at rules
  · intro rules
    obtain ⟨walked, ended⟩ := Symbols.checked_of_rules recorded.wellFormed rules
    have assigned := Symbols.assigned_of_rules recorded.wellFormed rules
    refine ⟨⟨_, verifier.registry.symbols.completed verifier.lines.toList⟩,
      Verifier.finish_ok_iff.mpr ⟨rfl, Symbols.check_ok_iff.mpr ⟨_, ?_, rfl, walked, ended⟩⟩⟩
    rw [← assigned]

/-- A method that reads a global, as its rules allow. -/
theorem finish_decides_rules_of_global :
    ∃ verifier, Verifier.feedAll {}
        ["int a = 5;", "void f(int b) \x7b", "b = a;", "return;", "\x7d"] = .ok verifier ∧
      (∃ program, verifier.finish = .ok program) ∧
      (verifier.registry.symbols.completed verifier.lines.toList).Rules verifier.lines.toList := by
  have evaluated :
      (verify ["int a = 5;", "void f(int b) \x7b", "b = a;", "return;", "\x7d"]).toBool = true := by
    decide +kernel
  obtain ⟨program, accepted⟩ := ok_of_toBool evaluated
  obtain ⟨verifier, fed, finished⟩ := verify_ok_iff.mp accepted
  have rules := (finish_decides_rules fed).mp ⟨program, finished⟩
  exact ⟨verifier, fed, ⟨program, finished⟩, rules⟩

end SJava
