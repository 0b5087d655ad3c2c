import SJava.Proofs.Renaming

/-!
# Names

Names matter only up to equality. Verification reads nothing of a text but its tokens
(`verify_eq_verifyTokens`), and the verification of renamed tokens is the renamed verification of
the tokens (`verifyTokens_eq_verdict`). Each check moves along with a renaming by itself, and the
checks are put together in the order in which the verifier makes them (`Renaming.bind_result`).
-/

namespace SJava

/-! ## Verification of tokens -/

def Registry.enterTokens (registry : Registry) (number : UInt32) (tokens : List Token) :
    Registry × Except Cause Line :=
  match Line.ofTokens number tokens with
  | .error cause => (registry, .error cause)
  | .ok line => registry.register line

namespace Verifier

def take (verifier : Verifier) (tokens : List Token) : Except Fault Verifier :=
  match verifier.registry.enterTokens verifier.nextNumber tokens with
  | (_, .error cause) => .error ⟨verifier.nextNumber, cause⟩
  | (registry, .ok line) =>
      match line.located line.checkForm with
      | .error fault => .error fault
      | .ok () => .ok ⟨registry, verifier.lines.push line⟩

def takeAll (verifier : Verifier) : List (List Token) → Except Fault Verifier
  | [] => .ok verifier
  | tokens :: rest =>
      match verifier.take tokens with
      | .error fault => .error fault
      | .ok verifier => verifier.takeAll rest

theorem feed_visible_take {verifier : Verifier} {text : String} (visible : isBlank text = false) :
    (verifier.feed text).2.map (fun _ => (verifier.feed text).1) = verifier.take (tokens text) := by
  have entered : verifier.registry.enterTokens verifier.nextNumber (tokens text) =
      verifier.registry.enter verifier.nextNumber text := rfl
  rw [feed, if_neg (by simp [visible]), take, entered]
  rcases verifier.registry.enter verifier.nextNumber text with ⟨registry, _ | line⟩
  · rfl
  · simp only
    cases line.located line.checkForm <;> rfl

theorem feedAll_eq_takeAll {verifier : Verifier} {texts : List String} :
    verifier.feedAll texts = verifier.takeAll (tokenLists texts) := by
  induction texts generalizing verifier with
  | nil => rfl
  | cons text rest ih =>
      cases blank : isBlank text with
      | true => rw [tokenLists_of_blank blank, feedAll_cons_ok (feed_blank blank), ih]
      | false =>
          rw [tokenLists_of_not_blank blank, feedAll, takeAll, ← feed_visible_take blank]
          rcases verifier.feed text with ⟨later, _ | _⟩
          · rfl
          · exact ih

end Verifier

/-- Verification stops at the first tokens that make no line, or else at the first line that breaks
a rule. -/
def verifyTokens (lists : List (List Token)) : Except Fault Program := do
  let verifier ← Verifier.takeAll {} lists
  verifier.finish

theorem verify_eq_verifyTokens {texts : List String} :
    verify texts = verifyTokens (tokenLists texts) := by
  rw [verify, verifyTokens, Verifier.feedAll_eq_takeAll]

/-- The first token of a line is one that lines of its kind begin with. -/
def Line.Started (line : Line) : Prop :=
  ∃ first rest, line.tokens = first :: rest ∧ line.kind.begins first.kind = true

namespace Renaming

variable {r : Renaming}

theorem bind_result {α β γ δ : Type} {f : α → β} {g : γ → δ} {first : Except Cause α}
    {renamed : Except Cause β} {next : α → Except Cause γ} {renamedNext : β → Except Cause δ}
    (h : renamed = r.result f first) (later : ∀ a, renamedNext (f a) = r.result g (next a)) :
    (renamed >>= renamedNext) = r.result g (first >>= next) := by
  rw [h]
  cases first with
  | error => rfl
  | ok a => exact later a

/-! ## Reading -/

section Read

variable {line : Line} {tokens : List Token} {kind : LineKind} {role : Role}

theorem ofTokens_renamed {number : UInt32} :
    Line.ofTokens number (tokens.map r.token) = r.result r.line (Line.ofTokens number tokens) := by
  cases tokens with
  | nil => rfl
  | cons first rest =>
      rw [List.map_cons, Line.ofTokens, Line.ofTokens, kind_token]
      cases LineKind.ofFirst? first.kind <;> rfl

theorem read_renamed {σ : Type} {f : σ → σ} {visit renamedVisit : σ → Role → Token → Except Cause σ}
    {state : σ} (visits : ∀ state role token, role.fits token.kind = true →
      renamedVisit (f state) role (r.token token) = r.result f (visit state role token)) :
    kind.read renamedVisit (f state) role (tokens.map r.token) =
      r.result f (kind.read visit state role tokens) := by
  induction tokens generalizing state role with
  | nil => rfl
  | cons token tokens ih =>
      rw [List.map_cons, LineKind.read, LineKind.read, kind_token]
      cases step : kind.next? role token.kind with
      | none => rfl
      | some played =>
          simp only [visits state played token (LineKind.next?_some step).1]
          cases visit state played token with
          | error => rfl
          | ok state => exact ih

theorem line_read_renamed {σ : Type} {f : σ → σ}
    {visit renamedVisit : σ → Role → Token → Except Cause σ} {state : σ}
    (visits : ∀ state role token, role.fits token.kind = true →
      renamedVisit (f state) role (r.token token) = r.result f (visit state role token)) :
    (r.line line).read renamedVisit (f state) = r.result f (line.read visit state) := by
  show line.kind.read renamedVisit (f state) line.kind.opening (line.tokens.map r.token).tail = _
  rw [← List.map_tail]
  exact read_renamed visits

theorem checkForm_renamed : (r.line line).checkForm = r.result id line.checkForm := by
  have last : (r.line line).last? = line.last? := by
    show (line.tokens.map r.token).getLast?.map Token.kind = line.tokens.getLast?.map Token.kind
    rw [List.getLast?_map, Option.map_map]
    congr 1
    funext token
    exact kind_token
  have kind : (r.line line).kind = line.kind := rfl
  have tokens : (r.line line).tokens = line.tokens.map r.token := rfl
  rw [Line.checkForm, Line.checkForm, kind]
  cases line.kind.terminator? with
  | some expected =>
      refine bind_result (f := id) ?_ fun _ => line_read_renamed (f := id) fun _ _ _ _ => rfl
      rw [Line.checkEnd, Line.checkEnd, last]
      split <;> rfl
  | none =>
      show (if line.kind = LineKind.comment then Except.ok () else (r.line line).checkAlone) =
        r.result id (if line.kind = LineKind.comment then Except.ok () else line.checkAlone)
      split
      · rfl
      · rw [Line.checkAlone, Line.checkAlone, tokens]
        rcases line.tokens with _ | ⟨first, _ | ⟨extra, rest⟩⟩
        · rfl
        · rfl
        · simp only [List.map_cons, kind_token]
          rfl

end Read

/-! ## Checks -/

section Checks

variable {line : Line} {vars : VariableTable} {symbols : Symbols} {v : Variable} {token : Token}

theorem isReadableAt_renamed {number : UInt32} {scope : Scope} :
    (r.record v).isReadableAt number (r.scope scope) = v.isReadableAt number scope := by
  have same (first second : Scope) : (r.scope first == r.scope second) = (first == second) :=
    r.relabelling.beq_scope
  obtain ⟨name, type, declared, isFinal, initialization?⟩ := v
  cases initialization? with
  | none => rfl
  | some place =>
      simp only [Variable.isReadableAt, Renaming.record, Renaming.place, Option.map_some,
        isGlobal_renamed, same]

theorem checkReadable_renamed :
    (r.record v).checkReadable (r.line line) = r.result id (v.checkReadable line) := by
  have same : (r.record v).isReadableAt (r.line line).number (r.line line).scope =
      v.isReadableAt line.number line.scope := isReadableAt_renamed
  rw [Variable.checkReadable, Variable.checkReadable, same]
  split <;> rfl

theorem valueType_renamed : (r.vars vars).valueType (r.line line) (r.token token) =
    r.result id (vars.valueType line token) := by
  rw [VariableTable.valueType, VariableTable.valueType, kind_token]
  split
  · rename_i named
    rw [name_variable named]
    refine bind_result resolve_renamed fun v => ?_
    exact bind_result checkReadable_renamed fun _ => rfl
  · cases token.kind.valueType? <;> rfl

theorem visitInitializer_renamed {name : String} {role : Role}
    (fits : role.fits token.kind = true) :
    (r.line line).visitInitializer (r.vars vars) (r.variableName name) role (r.token token) =
      r.result r.variableName (line.visitInitializer vars name role token) := by
  cases role with
  | name =>
      have named : token.kind = .variableName := by simpa [Role.fits] using fits
      rw [Line.visitInitializer, Line.visitInitializer, name_variable named]
      rfl
  | value =>
      rw [Line.visitInitializer, Line.visitInitializer]
      refine bind_result resolve_renamed fun target => ?_
      refine bind_result valueType_renamed fun found => ?_
      show (if target.type.accepts found then Except.ok (r.variableName name)
        else .error (Cause.initializerType (r.variableName name) target.type found)) = _
      split <;> rfl
  | _ => rfl

theorem read_typeWord {kind : LineKind} {isFinal : Bool} {first second : String}
    {tokens : List Token}
    (next : ∀ role second, kind.next? role second = Role.inDeclaration isFinal role second) :
    (kind.read (line.visitInitializer vars) first .typeWord tokens).map (fun _ => ()) =
      (kind.read (line.visitInitializer vars) second .typeWord tokens).map fun _ => () := by
  cases tokens with
  | nil => rfl
  | cons token tokens =>
      rw [LineKind.read, LineKind.read, next]
      cases step : Role.inDeclaration isFinal .typeWord token.kind with
      | none => rfl
      | some played =>
          have named : played = .name := by
            revert step
            cases token.kind <;> intro step <;> cases step
            rfl
          cases named
          rfl

/-- No name comes before the first value of a declaration, but the reading starts with one. -/
theorem checkDeclaration_start (line : Line)
    (kind : line.kind = .declaration ∨ line.kind = .finalDeclaration) (name : String) :
    line.checkDeclaration vars = (line.read (line.visitInitializer vars) name).map fun _ => () := by
  have start : line.checkDeclaration vars =
      (line.read (line.visitInitializer vars) "").map fun _ => () := by
    rw [Line.checkDeclaration]
    cases line.read (line.visitInitializer vars) "" <;> rfl
  rw [start, Line.read, Line.read]
  rcases kind with kind | kind <;> rw [kind]
  · exact read_typeWord fun _ _ => rfl
  · cases line.tokens.tail with
    | nil => rfl
    | cons word rest =>
        rw [LineKind.opening, LineKind.read, LineKind.read]
        cases step : LineKind.finalDeclaration.next? .finalWord word.kind with
        | none => rfl
        | some played =>
            have typed : played = .typeWord := by
              revert step
              cases word.kind <;> intro step <;> cases step <;> rfl
            cases typed
            exact read_typeWord fun _ _ => rfl

theorem checkDeclaration_renamed
    (kind : line.kind = .declaration ∨ line.kind = .finalDeclaration) :
    (r.line line).checkDeclaration (r.vars vars) = r.result id (line.checkDeclaration vars) := by
  have read : (r.line line).read ((r.line line).visitInitializer (r.vars vars))
      (r.variableName "") =
      r.result r.variableName (line.read (line.visitInitializer vars) "") :=
    line_read_renamed fun _ _ _ => visitInitializer_renamed
  rw [checkDeclaration_start line kind "",
    checkDeclaration_start (r.line line) kind (r.variableName ""), read]
  cases line.read (line.visitInitializer vars) "" <;> rfl

theorem visitAssigned_renamed {target : Variable} {role : Role} :
    (r.line line).visitAssigned (r.vars vars) (r.record target) role (r.token token) =
      r.result id (line.visitAssigned vars target role token) := by
  cases role with
  | value =>
      rw [Line.visitAssigned, Line.visitAssigned]
      refine bind_result valueType_renamed fun found => ?_
      show (if target.type.accepts found then Except.ok ()
        else .error (Cause.assignedType (r.variableName target.name) target.type found)) = _
      split <;> rfl
  | _ => rfl

theorem subject_variable (started : line.Started) (kind : line.kind = .assignment) :
    (r.line line).subject = r.variableName line.subject := by
  obtain ⟨first, rest, shape, start⟩ := started
  rw [kind] at start
  have named : first.kind = .variableName := by simpa [LineKind.begins] using start
  rw [Line.subject, Line.subject]
  show ((line.tokens.map r.token).head?.map Token.name).getD "" = _
  rw [shape]
  exact name_variable named

theorem subject_method (started : line.Started) (kind : line.kind = .methodCall) :
    (r.line line).subject = r.methodName line.subject := by
  obtain ⟨first, rest, shape, start⟩ := started
  rw [kind] at start
  have named : first.kind = .methodName := by simpa [LineKind.begins] using start
  rw [Line.subject, Line.subject]
  show ((line.tokens.map r.token).head?.map Token.name).getD "" = _
  rw [shape]
  exact name_method named

theorem checkAssignment_renamed (started : line.Started) (kind : line.kind = .assignment) :
    (r.line line).checkAssignment (r.vars vars) = r.result id (line.checkAssignment vars) := by
  rw [Line.checkAssignment, Line.checkAssignment, subject_variable started kind]
  refine bind_result resolve_renamed fun target => ?_
  have read : (r.line line).read (fun _ => (r.line line).visitAssigned (r.vars vars)
      (r.record target)) () =
      r.result id (line.read (fun _ => line.visitAssigned vars target) ()) :=
    line_read_renamed (f := id) fun _ _ _ _ => visitAssigned_renamed
  rw [read]
  show (if target.isFinal = true then _ else _) = _
  split <;> rfl

theorem checkHeader_renamed : (r.line line).checkHeader = r.result id line.checkHeader := by
  rw [Line.checkHeader, Line.checkHeader]
  show (if (r.scope line.scope).isGlobal = true then _ else _) = _
  rw [isGlobal_renamed]
  split <;> rfl

theorem visitArgument_renamed {types : List ValueType} {role : Role} :
    (r.line line).visitArgument (r.vars vars) types role (r.token token) =
      r.result id (line.visitArgument vars types role token) := by
  cases role with
  | value => exact bind_result valueType_renamed fun _ => rfl
  | _ => rfl

theorem checkArguments_renamed {method : String} {position : Nat} {slots types : List ValueType} :
    Line.checkArguments (r.methodName method) position slots types =
      r.result id (Line.checkArguments method position slots types) := by
  induction slots generalizing position types with
  | nil => rfl
  | cons slot slots ih =>
      cases types with
      | nil => rfl
      | cons type types =>
          rw [Line.checkArguments, Line.checkArguments]
          split
          · exact ih
          · rfl

theorem checkCall_renamed (started : line.Started) (kind : line.kind = .methodCall) :
    (r.line line).checkCall (r.symbols symbols) = r.result id (line.checkCall symbols) := by
  have read : (r.line line).read ((r.line line).visitArgument (r.vars symbols.vars)) [] =
      r.result id (line.read (line.visitArgument symbols.vars) []) :=
    line_read_renamed (f := id) fun _ _ _ _ => visitArgument_renamed
  rw [Line.checkCall, Line.checkCall, subject_method started kind]
  show (if (r.scope line.scope).isGlobal = true then _ else _) = _
  rw [isGlobal_renamed]
  split
  · rfl
  · refine bind_result resolve_method fun method => ?_
    refine bind_result read fun types => ?_
    show (if types.length ≠ method.parameters.length then _ else _) = _
    split
    · rfl
    · exact checkArguments_renamed

theorem visitAtom_renamed {role : Role} :
    (r.line line).visitAtom (r.vars vars) role (r.token token) =
      r.result id (line.visitAtom vars role token) := by
  cases role with
  | value =>
      rw [Line.visitAtom, Line.visitAtom, kind_token]
      split
      · rename_i named
        rw [name_variable named]
        refine bind_result resolve_renamed fun v => ?_
        rw [checkReadable_renamed]
        show (if (!v.type.isCondition) = true then _ else _) = _
        split <;> rfl
      · rfl
  | _ => rfl

theorem checkCondition_renamed :
    (r.line line).checkCondition (r.vars vars) = r.result id (line.checkCondition vars) := by
  have read : (r.line line).read (fun _ => (r.line line).visitAtom (r.vars vars)) () =
      r.result id (line.read (fun _ => line.visitAtom vars) ()) :=
    line_read_renamed (f := id) fun _ _ _ _ => visitAtom_renamed
  rw [Line.checkCondition, Line.checkCondition, read]
  show (if (r.scope line.scope).isGlobal = true then _ else _) = _
  rw [isGlobal_renamed]
  split <;> rfl

theorem checkMeaning_renamed {previous : Option LineKind} (started : line.Started) :
    (r.line line).checkMeaning previous (r.symbols symbols) =
      r.result id (line.checkMeaning previous symbols) := by
  rw [Line.checkMeaning, Line.checkMeaning, show (r.line line).kind = line.kind from rfl]
  cases kind : line.kind with
  | declaration => exact checkDeclaration_renamed (.inl kind)
  | finalDeclaration => exact checkDeclaration_renamed (.inr kind)
  | assignment => exact checkAssignment_renamed started kind
  | methodHeader => exact checkHeader_renamed
  | methodCall => exact checkCall_renamed started kind
  | ifHeader | whileHeader => exact checkCondition_renamed
  | methodReturn =>
      show (if (r.scope line.scope).isGlobal = true then _ else _) =
        r.result id (if line.scope.isGlobal = true then _ else _)
      rw [isGlobal_renamed]
      split <;> rfl
  | closingBracket =>
      show (if ((r.scope line.scope).isGlobal && previous != some .methodReturn) = true then _
          else _) =
        r.result id (if (line.scope.isGlobal && previous != some .methodReturn) = true then _
          else _)
      rw [isGlobal_renamed]
      split <;> rfl
  | comment => rfl

end Checks

/-! ## Programs -/

section Programs

variable {line : Line} {lines : List Line} {vars : VariableTable} {symbols : Symbols}

theorem located_renamed {α β : Type} {f : α → β} {outcome : Except Cause α} :
    (r.line line).located (r.result f outcome) = r.verdict f (line.located outcome) := by
  cases outcome <;> rfl

theorem assigned_renamed {v : Variable} {place : Initialization} :
    (r.record v).assigned (r.place place) = r.record (v.assigned place) := by
  obtain ⟨name, type, scope, isFinal, initialization?⟩ := v
  cases initialization? <;> rfl

theorem assign_renamed {name : String} {place : Initialization} :
    (r.vars vars).assign (r.variableName name) (r.place place) =
      r.result r.vars (vars.assign name place) := by
  have resolved : (r.vars vars).resolve (r.variableName name) (r.place place).scope =
      r.result r.record (vars.resolve name place.scope) := resolve_renamed
  rw [VariableTable.assign, VariableTable.assign, resolved]
  cases vars.resolve name place.scope with
  | error => rfl
  | ok target =>
      have update (v : Variable) :
          (if (r.record v).name == (r.record target).name &&
              (r.record v).scope == (r.record target).scope
            then (r.record v).assigned (r.place place) else r.record v) =
          r.record (if v.name == target.name && v.scope == target.scope then v.assigned place
            else v) := by
        have name : ((r.record v).name == (r.record target).name) = (v.name == target.name) :=
          r.relabelling.beq_name
        have scope : ((r.record v).scope == (r.record target).scope) = (v.scope == target.scope) :=
          r.relabelling.beq_scope
        rw [name, scope, assigned_renamed]
        split <;> rfl
      refine congrArg (fun records => Except.ok (VariableTable.mk records)) ?_
      show (vars.records.map r.record).map _ = (vars.records.map _).map r.record
      rw [List.map_map, List.map_map]
      exact List.map_congr_left fun v _ => update v

theorem assignAll_renamed {place : Initialization} {names : List String} :
    (r.vars vars).assignAll (r.place place) (names.map r.variableName) =
      Prod.map r.vars (r.result id) (vars.assignAll place names) := by
  induction names generalizing vars with
  | nil => rfl
  | cons name names ih =>
      rw [List.map_cons, VariableTable.assignAll, VariableTable.assignAll, assign_renamed]
      cases vars.assign name place with
      | error => rfl
      | ok => exact ih

theorem assignLines_renamed : (r.vars vars).assignLines (lines.map r.line) =
    Prod.map r.vars (r.verdict id) (vars.assignLines lines) := by
  induction lines generalizing vars with
  | nil => rfl
  | cons line lines ih =>
      have assigned : (r.vars vars).assignAll ⟨(r.line line).number, (r.line line).scope⟩
          (r.line line).written =
          Prod.map r.vars (r.result id)
            (vars.assignAll ⟨line.number, line.scope⟩ line.written) := by
        rw [written_renamed, ← assignAll_renamed]
        rfl
      rw [List.map_cons, VariableTable.assignLines, VariableTable.assignLines, assigned]
      rcases vars.assignAll ⟨line.number, line.scope⟩ line.written with ⟨next, _ | _⟩
      · rfl
      · exact ih

theorem checkLines_renamed {previous : Option LineKind} (started : ∀ line ∈ lines, line.Started) :
    (r.symbols symbols).checkLines previous (lines.map r.line) =
      r.verdict id (symbols.checkLines previous lines) := by
  induction lines generalizing previous with
  | nil => rfl
  | cons line lines ih =>
      rw [List.forall_mem_cons] at started
      rw [List.map_cons, Symbols.checkLines, Symbols.checkLines, checkMeaning_renamed started.1,
        located_renamed]
      cases line.located (line.checkMeaning previous symbols) with
      | error => rfl
      | ok => exact ih started.2

theorem checkEnd_renamed :
    Symbols.checkEnd (lines.map r.line) = r.verdict id (Symbols.checkEnd lines) := by
  rw [Symbols.checkEnd, Symbols.checkEnd, List.getLast?_map]
  cases lines.getLast? with
  | none => rfl
  | some last =>
      show (if (r.scope last.scope).isGlobal = true then _ else _) =
        r.verdict id (if last.scope.isGlobal = true then _ else _)
      rw [isGlobal_renamed]
      split <;> rfl

theorem check_renamed (started : ∀ line ∈ lines, line.Started) :
    (r.symbols symbols).check (lines.map r.line) =
      Prod.map r.symbols (r.verdict id) (symbols.check lines) := by
  have assigned : (r.symbols symbols).vars.assignLines (lines.map r.line) =
      Prod.map r.vars (r.verdict id) (symbols.vars.assignLines lines) := assignLines_renamed
  rw [Symbols.check, Symbols.check, assigned]
  rcases symbols.vars.assignLines lines with ⟨vars, _ | _⟩
  · rfl
  · have walked : (r.symbols { symbols with vars }).checkLines none (lines.map r.line) =
        r.verdict id (({ symbols with vars } : Symbols).checkLines none lines) :=
      checkLines_renamed started
    refine Prod.ext rfl ?_
    show (do
      (r.symbols { symbols with vars }).checkLines none (lines.map r.line)
      Symbols.checkEnd (lines.map r.line)) =
      r.verdict id (do
        ({ symbols with vars } : Symbols).checkLines none lines
        Symbols.checkEnd lines)
    rw [walked, checkEnd_renamed]
    cases ({ symbols with vars } : Symbols).checkLines none lines <;> rfl

variable {verifier later : Verifier} {tokens : List Token} {lists : List (List Token)}

theorem finish_renamed (started : ∀ line ∈ verifier.lines.toList, line.Started) :
    (r.verifier verifier).finish = r.verdict r.program verifier.finish := by
  have checked : (r.verifier verifier).registry.symbols.check (r.verifier verifier).lines.toList =
      Prod.map r.symbols (r.verdict id)
        (verifier.registry.symbols.check verifier.lines.toList) := by
    rw [← check_renamed started, ← Array.toList_map]
    rfl
  rw [Verifier.finish, Verifier.finish, checked]
  rcases verifier.registry.symbols.check verifier.lines.toList with ⟨symbols, _ | _⟩
  · rfl
  · show Except.ok (Program.mk (verifier.lines.map r.line).toList (r.symbols symbols)) = _
    rw [Array.toList_map]
    rfl

theorem enterTokens_renamed {registry : Registry} {number : UInt32} :
    (r.registry registry).enterTokens number (tokens.map r.token) =
      Prod.map r.registry (r.result r.line) (registry.enterTokens number tokens) := by
  rw [Registry.enterTokens, Registry.enterTokens, ofTokens_renamed]
  cases Line.ofTokens number tokens with
  | error => rfl
  | ok line => exact register_renamed line registry

theorem take_renamed : (r.verifier verifier).take (tokens.map r.token) =
    r.verdict r.verifier (verifier.take tokens) := by
  have number : (r.verifier verifier).nextNumber = verifier.nextNumber := by
    rw [Verifier.nextNumber, Verifier.nextNumber, Renaming.verifier, Array.size_map]
  have entered : (r.verifier verifier).registry.enterTokens verifier.nextNumber
      (tokens.map r.token) = Prod.map r.registry (r.result r.line)
        (verifier.registry.enterTokens verifier.nextNumber tokens) := enterTokens_renamed
  rw [Verifier.take, Verifier.take, number, entered]
  rcases verifier.registry.enterTokens verifier.nextNumber tokens with ⟨registry, _ | line⟩
  · rfl
  · have form : (r.line line).located (r.line line).checkForm =
        r.verdict id (line.located line.checkForm) := by
      rw [checkForm_renamed, located_renamed]
    show (match (r.line line).located (r.line line).checkForm with
      | .error fault => Except.error fault
      | .ok () => .ok (Verifier.mk (r.registry registry) ((verifier.lines.map r.line).push
          (r.line line)))) =
      r.verdict r.verifier (match line.located line.checkForm with
        | .error fault => .error fault
        | .ok () => .ok ⟨registry, verifier.lines.push line⟩)
    rw [form, ← Array.map_push]
    cases line.located line.checkForm <;> rfl

theorem takeAll_renamed : (r.verifier verifier).takeAll (lists.map (List.map r.token)) =
    r.verdict r.verifier (verifier.takeAll lists) := by
  induction lists generalizing verifier with
  | nil => rfl
  | cons tokens lists ih =>
      rw [List.map_cons, Verifier.takeAll, Verifier.takeAll, take_renamed]
      cases verifier.take tokens with
      | error => rfl
      | ok => exact ih

end Programs

end Renaming

/-! ## Runs -/

section

variable {verifier later : Verifier} {tokens : List Token} {lists : List (List Token)}

theorem Verifier.take_started (before : ∀ line ∈ verifier.lines.toList, line.Started)
    (taken : verifier.take tokens = .ok later) : ∀ line ∈ later.lines.toList, line.Started := by
  rw [take] at taken
  split at taken
  · cases taken
  · rename_i registry line entered
    split at taken
    · cases taken
    · cases taken
      simp only [Array.toList_push, List.mem_append, List.mem_singleton]
      rintro other (member | rfl)
      · exact before other member
      · rw [Registry.enterTokens] at entered
        split at entered
        · cases entered
        · rename_i raw made
          obtain ⟨-, kind, shape⟩ := Registry.register_same entered
          obtain ⟨first, rest, rawShape, start, same⟩ := Line.ofTokens_ok made
          rw [same] at shape
          exact ⟨first, rest, shape.trans rawShape, kind ▸ start⟩

theorem Verifier.takeAll_started (before : ∀ line ∈ verifier.lines.toList, line.Started)
    (taken : verifier.takeAll lists = .ok later) : ∀ line ∈ later.lines.toList, line.Started := by
  induction lists generalizing verifier with
  | nil =>
      cases taken
      exact before
  | cons tokens lists ih =>
      rw [takeAll] at taken
      split at taken
      · cases taken
      · rename_i next step
        exact ih (take_started before step) taken

end

theorem verifyTokens_eq_verdict (r : Renaming) (lists : List (List Token)) :
    verifyTokens (lists.map (List.map r.token)) = r.verdict r.program (verifyTokens lists) := by
  have taken : (r.verifier {}).takeAll (lists.map (List.map r.token)) =
      r.verdict r.verifier (Verifier.takeAll {} lists) := Renaming.takeAll_renamed
  have start : r.verifier {} = {} := congrArg (Verifier.mk {}) Array.map_empty
  rw [start] at taken
  rw [verifyTokens, verifyTokens, taken]
  cases outcome : Verifier.takeAll {} lists with
  | error => rfl
  | ok verifier =>
      apply Renaming.finish_renamed
      exact Verifier.takeAll_started (fun _ member => absurd member List.not_mem_nil) outcome

/-- Renamed tokens are accepted as the tokens are, with all that is known of their program renamed,
or refused on the same line for a fault of the same kind. -/
theorem verifyTokens_renamed (r : Renaming) (lists : List (List Token)) :
    ((∃ program, verifyTokens (lists.map (List.map r.token)) = .ok program) ↔
      ∃ program, verifyTokens lists = .ok program) ∧
    (∀ program, verifyTokens lists = .ok program →
      verifyTokens (lists.map (List.map r.token)) = .ok (r.program program)) ∧
    ∀ fault, verifyTokens lists = .error fault →
      ∃ renamed, verifyTokens (lists.map (List.map r.token)) = .error renamed ∧
        renamed.line = fault.line ∧ renamed.diagnostic.kind = fault.diagnostic.kind := by
  rw [verifyTokens_eq_verdict]
  cases verifyTokens lists with
  | error fault =>
      refine ⟨iff_of_false nofun nofun, nofun, ?_⟩
      rintro _ ⟨⟩
      exact ⟨r.fault fault, rfl, rfl, r.kind_cause fault.cause⟩
  | ok program =>
      refine ⟨iff_of_true ⟨r.program program, rfl⟩ ⟨program, rfl⟩, ?_, ?_⟩
      · rintro _ ⟨⟩
        rfl
      · rintro _ ⟨⟩

/-- One text put before the names of all variables, and one before those of all methods. -/
def Renaming.putBefore (ofVariables ofMethods : String) : Renaming where
  variableName name := ofVariables ++ name
  methodName name := ofMethods ++ name
  variableName_injective _ _ same := (String.append_right_inj ofVariables).mp same
  methodName_injective _ _ same := (String.append_right_inj ofMethods).mp same

/-- The renamed method is named like the block in it. -/
theorem verifyTokens_renamed_if1 :
    let r : Renaming := .putBefore "x" "i"
    let lists := ["void f1(int a) \x7b", "if (a) \x7b", "a = 2;", "\x7d", "return;", "\x7d"].map
      tokens
    let refused := ["void f1() \x7b", "a = 2;", "return;", "\x7d"].map tokens
    (∃ program line, verifyTokens lists = .ok program ∧
      verifyTokens (lists.map (List.map r.token)) = .ok (r.program program) ∧
      (r.program program).lines[2]? = some line ∧
      line.scope = ⟨[.ifBlock 1, .method "if1"]⟩ ∧ line.subject = "xa") ∧
    verifyTokens refused = .error ⟨2, .unbound "a" ⟨[.method "f1"]⟩⟩ ∧
    ∃ renamed, verifyTokens (refused.map (List.map r.token)) = .error renamed ∧
      renamed.line = 2 ∧ renamed.diagnostic.kind = .unboundVariable := by
  intro r lists refused
  have evaluated : (verifyTokens lists).toOption.any
      (fun program => (r.program program).lines[2]?.any fun line =>
        line.scope == ⟨[.ifBlock 1, .method "if1"]⟩ && line.subject == "xa") = true := by
    decide +kernel
  have unbound : verifyTokens refused = .error ⟨2, .unbound "a" ⟨[.method "f1"]⟩⟩ := by
    decide +kernel
  obtain ⟨program, accepted, test⟩ := ok_of_any evaluated
  obtain ⟨line, stored, test⟩ := (Option.any_eq_true _ _).mp test
  simp only [Bool.and_eq_true, beq_iff_eq] at test
  obtain ⟨-, same, -⟩ := verifyTokens_renamed r lists
  obtain ⟨-, -, fails⟩ := verifyTokens_renamed r refused
  obtain ⟨renamed, failed, number, kind⟩ := fails _ unbound
  exact ⟨⟨program, line, accepted, same program accepted, stored, test.1, test.2⟩,
    unbound, renamed, failed, number, kind⟩

end SJava
