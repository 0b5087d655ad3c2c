import SJava.Proofs.Names
import SJava.Proofs.Swapping

/-!
# Renumbering

The numbers of lines matter only by their order. Taking in a line asks for no number, so it comes
out renumbered whatever the new numbers are (`Renumbering.enterTokens_renumbered`). The check of a
program asks which of two lines comes first, and only when a variable is read. Under a renumbering
that keeps the order of the lines it finds the same fault, at the renumbered line
(`Renumbering.check_renumbered`), since the places where variables get their values are those lines
(`VariableTable.PlacedIn`).
-/

namespace SJava

structure Renumbering where
  number : UInt32 → UInt32

namespace Renumbering

variable (r : Renumbering)

def place (place : Initialization) : Initialization := { place with line := r.number place.line }

def record (v : Variable) : Variable := { v with initialization? := v.initialization?.map r.place }

def vars (vars : VariableTable) : VariableTable := vars.map r.record

def symbols (symbols : Symbols) : Symbols := { symbols with vars := r.vars symbols.vars }

def registry (registry : Registry) : Registry :=
  { registry with symbols := r.symbols registry.symbols }

def line (line : Line) : Line := { line with number := r.number line.number }

def fault (fault : Fault) : Fault := { fault with line := r.number fault.line }

/-- What a step that comes out with `outcome` comes out with after a renumbering. -/
def verdict {α β : Type} (f : α → β) (outcome : Except Fault α) : Except Fault β :=
  (outcome.map f).mapError r.fault

section Verdicts

variable {r} {α β γ : Type} {f : α → γ} {g : β → γ} {new : Except Fault α} {old : Except Fault β}

theorem ok_iff_of_verdict (same : new.map f = r.verdict g old) :
    (∃ a, new = .ok a) ↔ ∃ b, old = .ok b := by
  cases new with
  | error =>
      cases old with
      | error => exact iff_of_false nofun nofun
      | ok => cases same
  | ok =>
      cases old with
      | error => cases same
      | ok => exact iff_of_true ⟨_, rfl⟩ ⟨_, rfl⟩

theorem error_of_verdict {fault : Fault} (same : new.map f = r.verdict g old)
    (failed : old = .error fault) : new = .error (r.fault fault) := by
  subst failed
  cases new with
  | error =>
      cases same
      rfl
  | ok => cases same

end Verdicts

/-! ## Tables -/

section Tables

variable {r} {table : VariableTable} {name : String} {scope : Scope} {v : Variable}

theorem find?_renumbered :
    (r.vars table).find? name scope = (table.find? name scope).map r.record :=
  VariableTable.find?_map fun _ => ⟨rfl, rfl⟩

theorem resolve_renumbered :
    (r.vars table).resolve name scope = (table.resolve name scope).map r.record := by
  have found : (r.vars table).lookup? name scope = (table.lookup? name scope).map r.record :=
    VariableTable.lookup?_map fun _ => ⟨rfl, rfl⟩
  rw [VariableTable.resolve, VariableTable.resolve, found]
  cases table.lookup? name scope <;> rfl

theorem declare_renumbered :
    (r.vars table).declare (r.record v) = (table.declare v).map r.vars := by
  have found : (r.vars table).find? (r.record v).name (r.record v).scope =
      (table.find? v.name v.scope).map r.record := find?_renumbered
  rw [VariableTable.declare, VariableTable.declare, found]
  cases table.find? v.name v.scope with
  | some => rfl
  | none =>
      have records : (r.vars table).records ++ [r.record v] =
          (table.records ++ [v]).map r.record := by
        rw [List.map_append]
        rfl
      rw [records]
      rfl

theorem declareAll_renumbered {vs : List Variable} :
    (r.vars table).declareAll (vs.map r.record) = Prod.map r.vars id (table.declareAll vs) := by
  induction vs generalizing table with
  | nil => rfl
  | cons v vs ih =>
      rw [List.map_cons, VariableTable.declareAll, VariableTable.declareAll, declare_renumbered]
      cases table.declare v with
      | error => rfl
      | ok => exact ih

theorem assigned_renumbered {place : Initialization} :
    (r.record v).assigned (r.place place) = r.record (v.assigned place) := by
  obtain ⟨name, type, scope, isFinal, initialization?⟩ := v
  cases initialization? <;> rfl

theorem assign_renumbered {place : Initialization} :
    (r.vars table).assign name (r.place place) = (table.assign name place).map r.vars := by
  have resolved : (r.vars table).resolve name (r.place place).scope =
      (table.resolve name place.scope).map r.record := resolve_renumbered
  rw [VariableTable.assign, VariableTable.assign, resolved]
  cases table.resolve name place.scope with
  | error => rfl
  | ok target =>
      refine congrArg (Except.ok ∘ VariableTable.mk) ?_
      show (table.records.map r.record).map _ = (table.records.map _).map r.record
      rw [List.map_map, List.map_map]
      refine List.map_congr_left fun v _ => ?_
      show (if v.name == target.name && v.scope == target.scope then _ else _) =
        r.record (if v.name == target.name && v.scope == target.scope then _ else _)
      split
      · exact assigned_renumbered
      · rfl

theorem assignAll_renumbered {place : Initialization} {names : List String} :
    (r.vars table).assignAll (r.place place) names =
      Prod.map r.vars id (table.assignAll place names) := by
  induction names generalizing table with
  | nil => rfl
  | cons name names ih =>
      rw [VariableTable.assignAll, VariableTable.assignAll, assign_renumbered]
      cases table.assign name place with
      | error => rfl
      | ok => exact ih

theorem assignLines_renumbered {lines : List Line} :
    (r.vars table).assignLines (lines.map r.line) =
      Prod.map r.vars (r.verdict id) (table.assignLines lines) := by
  induction lines generalizing table with
  | nil => rfl
  | cons line lines ih =>
      have assigned : (r.vars table).assignAll ⟨(r.line line).number, (r.line line).scope⟩
          (r.line line).written =
          Prod.map r.vars id (table.assignAll ⟨line.number, line.scope⟩ line.written) := by
        rw [← assignAll_renumbered]
        rfl
      rw [List.map_cons, VariableTable.assignLines, VariableTable.assignLines, assigned]
      rcases table.assignAll ⟨line.number, line.scope⟩ line.written with ⟨next, _ | _⟩
      · rfl
      · exact ih

end Tables

/-! ## Taking in lines -/

section Lines

variable {r} {registry : Registry} {number : UInt32} {tokens : List Token}

theorem declareVariables_renumbered (line : Line) (registry : Registry) :
    (r.registry registry).declareVariables (r.line line) =
      Prod.map r.registry (Except.map r.line) (registry.declareVariables line) := by
  have unset : line.declared.map r.record = line.declared := by
    refine (List.map_congr_left fun v member => ?_).trans (List.map_id _)
    obtain ⟨name, type, scope, isFinal, initialization?⟩ := v
    cases declared_uninitialized member
    rfl
  have declared : (r.registry registry).symbols.vars.declareAll (r.line line).declared =
      Prod.map r.vars id (registry.symbols.vars.declareAll line.declared) := by
    rw [← declareAll_renumbered, unset]
    rfl
  rw [Registry.declareVariables, Registry.declareVariables, declared]
  rcases registry.symbols.vars.declareAll line.declared with ⟨vars, _ | _⟩ <;> rfl

theorem declareMethod_renumbered (line : Line) (registry : Registry) :
    (r.registry registry).declareMethod (r.line line) =
      Prod.map r.registry (Except.map r.line) (registry.declareMethod line) := by
  have header : (r.line line).header? = line.header? := rfl
  rw [Registry.declareMethod, Registry.declareMethod, header]
  rcases line.header? with _ | ⟨name, parameters⟩
  · rfl
  · have vars : (r.registry registry).symbols.vars.declareAll
        (parameters.map (·.toVariable (r.line line).number
          ((r.registry registry).scope.child (.method name)))) =
        Prod.map r.vars id (registry.symbols.vars.declareAll
          (parameters.map (·.toVariable line.number (registry.scope.child (.method name))))) := by
      rw [← declareAll_renumbered, List.map_map]
      rfl
    have methods : (r.registry registry).symbols.methods = registry.symbols.methods := rfl
    simp only [vars, methods]
    cases registry.symbols.methods.declare ⟨name, parameters.map Parameter.type⟩ with
    | error => rfl
    | ok methods =>
        generalize registry.symbols.vars.declareAll _ = declared
        rcases declared with ⟨next, _ | _⟩ <;> rfl

theorem register_renumbered (line : Line) (registry : Registry) :
    (r.registry registry).register (r.line line) =
      Prod.map r.registry (Except.map r.line) (registry.register line) := by
  obtain ⟨number, kind, around, tokens⟩ := line
  cases kind with
  | declaration =>
      exact declareVariables_renumbered ⟨number, .declaration, registry.scope, tokens⟩ registry
  | finalDeclaration =>
      exact declareVariables_renumbered ⟨number, .finalDeclaration, registry.scope, tokens⟩ registry
  | methodHeader =>
      exact declareMethod_renumbered ⟨number, .methodHeader, registry.scope, tokens⟩ registry
  | closingBracket =>
      obtain ⟨⟨path⟩, ifCount, whileCount, symbols⟩ := registry
      cases path <;> rfl
  | ifHeader | whileHeader | assignment | methodCall | comment | methodReturn => rfl

theorem enterTokens_renumbered :
    (r.registry registry).enterTokens (r.number number) tokens =
      Prod.map r.registry (Except.map r.line) (registry.enterTokens number tokens) := by
  have made : Line.ofTokens (r.number number) tokens =
      (Line.ofTokens number tokens).map r.line := by
    rw [Line.ofTokens.eq_def, Line.ofTokens.eq_def]
    split
    · rfl
    · split <;> rfl
  rw [Registry.enterTokens, Registry.enterTokens, made]
  cases Line.ofTokens number tokens with
  | error => rfl
  | ok line => exact register_renumbered line registry

end Lines

/-! ## Checks -/

/-- The renumbering changes nothing about which variables can be read on a line. -/
def Keeps (vars : VariableTable) (line : Line) : Prop :=
  ∀ v ∈ vars.records, (r.record v).isReadableAt (r.number line.number) line.scope =
    v.isReadableAt line.number line.scope

section Checks

variable {r} {line : Line} {vars : VariableTable} {symbols : Symbols} {token : Token}

theorem checkReadable_renumbered {name : String} {v : Variable} (keeps : r.Keeps vars line)
    (found : vars.resolve name line.scope = .ok v) :
    (r.record v).checkReadable (r.line line) = v.checkReadable line := by
  have member : v ∈ vars.records :=
    VariableTable.lookup?_mem (VariableTable.resolve_ok.mp found)
  have same : (r.record v).isReadableAt (r.line line).number (r.line line).scope =
      v.isReadableAt line.number line.scope := keeps v member
  rw [Variable.checkReadable, Variable.checkReadable, same]
  rfl

theorem valueType_renumbered (keeps : r.Keeps vars line) :
    (r.vars vars).valueType (r.line line) token = vars.valueType line token := by
  rw [VariableTable.valueType, VariableTable.valueType]
  split
  · rw [resolve_renumbered, show (r.line line).scope = line.scope from rfl]
    cases found : vars.resolve token.name line.scope with
    | error => rfl
    | ok v =>
        show ((r.record v).checkReadable (r.line line) >>= fun _ => pure v.type) = _
        rw [checkReadable_renumbered keeps found]
        rfl
  · rfl

theorem visitInitializer_renumbered (keeps : r.Keeps vars line) :
    (r.line line).visitInitializer (r.vars vars) = line.visitInitializer vars := by
  funext name role token
  cases role with
  | value =>
      rw [Line.visitInitializer, Line.visitInitializer, valueType_renumbered keeps,
        resolve_renumbered]
      show ((vars.resolve name line.scope).map r.record >>= _) = _
      cases vars.resolve name line.scope <;> rfl
  | _ => rfl

theorem checkDeclaration_renumbered (keeps : r.Keeps vars line) :
    (r.line line).checkDeclaration (r.vars vars) = line.checkDeclaration vars := by
  rw [Line.checkDeclaration, Line.checkDeclaration, visitInitializer_renumbered keeps]
  rfl

theorem visitAssigned_renumbered {target : Variable} (keeps : r.Keeps vars line) :
    (r.line line).visitAssigned (r.vars vars) (r.record target) =
      line.visitAssigned vars target := by
  funext role token
  cases role with
  | value =>
      rw [Line.visitAssigned, Line.visitAssigned, valueType_renumbered keeps]
      rfl
  | _ => rfl

theorem checkAssignment_renumbered (keeps : r.Keeps vars line) :
    (r.line line).checkAssignment (r.vars vars) = line.checkAssignment vars := by
  rw [Line.checkAssignment, Line.checkAssignment, resolve_renumbered]
  show ((vars.resolve line.subject line.scope).map r.record >>= _) = _
  cases vars.resolve line.subject line.scope with
  | error => rfl
  | ok target =>
      let visit := (r.line line).visitAssigned (r.vars vars) (r.record target)
      show (do
        if target.isFinal then throw (Cause.finalReassigned target.name)
        (r.line line).read (fun _ => visit) ()) = _
      rw [show visit = line.visitAssigned vars target from visitAssigned_renumbered keeps]
      rfl

theorem visitArgument_renumbered (keeps : r.Keeps vars line) :
    (r.line line).visitArgument (r.vars vars) = line.visitArgument vars := by
  funext types role token
  cases role with
  | value => rw [Line.visitArgument, Line.visitArgument, valueType_renumbered keeps]
  | _ => rfl

theorem checkCall_renumbered (keeps : r.Keeps symbols.vars line) :
    (r.line line).checkCall (r.symbols symbols) = line.checkCall symbols := by
  have visits : (r.line line).visitArgument (r.symbols symbols).vars =
      line.visitArgument symbols.vars := visitArgument_renumbered keeps
  rw [Line.checkCall, Line.checkCall, visits]
  rfl

theorem visitAtom_renumbered (keeps : r.Keeps vars line) :
    (r.line line).visitAtom (r.vars vars) = line.visitAtom vars := by
  funext role token
  cases role with
  | value =>
      rw [Line.visitAtom, Line.visitAtom]
      split
      · rw [resolve_renumbered, show (r.line line).scope = line.scope from rfl]
        cases found : vars.resolve token.name line.scope with
        | error => rfl
        | ok v =>
            show (do
              if !v.type.isCondition then throw (Cause.conditionType v.name v.type)
              (r.record v).checkReadable (r.line line)) = _
            rw [checkReadable_renumbered keeps found]
            rfl
      · rfl
  | _ => rfl

theorem checkCondition_renumbered (keeps : r.Keeps vars line) :
    (r.line line).checkCondition (r.vars vars) = line.checkCondition vars := by
  rw [Line.checkCondition, Line.checkCondition, visitAtom_renumbered keeps]
  rfl

theorem checkMeaning_renumbered {previous : Option LineKind} (keeps : r.Keeps symbols.vars line) :
    (r.line line).checkMeaning previous (r.symbols symbols) =
      line.checkMeaning previous symbols := by
  rw [Line.checkMeaning, Line.checkMeaning, show (r.line line).kind = line.kind from rfl]
  cases line.kind with
  | declaration | finalDeclaration => exact checkDeclaration_renumbered keeps
  | assignment => exact checkAssignment_renumbered keeps
  | methodCall => exact checkCall_renumbered keeps
  | ifHeader | whileHeader => exact checkCondition_renumbered keeps
  | methodHeader | methodReturn | closingBracket | comment => rfl

end Checks

end Renumbering

/-! ## Programs -/

/-- The places where variables get their values are among some lines. -/
def VariableTable.PlacedIn (table : VariableTable) (lines : List Line) : Prop :=
  ∀ v ∈ table.records, ∀ place, v.initialization? = some place →
    ∃ line ∈ lines, place.line = line.number

section

variable {table : VariableTable} {registry : Registry} {lines : List Line}

theorem Recorded.placedIn (recorded : Recorded registry lines) :
    registry.symbols.vars.PlacedIn lines := by
  intro v member place initialized
  rw [recorded.registered.vars] at member
  obtain ⟨line, stored, new⟩ := List.mem_flatMap.mp member
  exact ⟨line, stored, by rw [Line.initialization_of_newVariable new initialized]⟩

theorem VariableTable.PlacedIn.given (placed : table.PlacedIn lines) :
    (table.given (lines.flatMap Line.writes)).PlacedIn lines := by
  intro v member place initialized
  obtain ⟨before, known, rfl⟩ := List.mem_map.mp member
  rcases Option.or_eq_some_iff.mp initialized with old | ⟨-, first⟩
  · exact placed before known place old
  · obtain ⟨i, writer, stored, rfl, -⟩ := firstValue?_some first
    exact ⟨writer, List.mem_of_getElem? stored, rfl⟩

end

namespace Renumbering

/-- The lines stay in order. -/
def KeepsOrder (r : Renumbering) (lines : List Line) : Prop :=
  ∀ first ∈ lines, ∀ second ∈ lines,
    (r.number first.number < r.number second.number ↔ first.number < second.number)

section

variable {r : Renumbering} {line : Line} {lines : List Line} {vars : VariableTable}
  {symbols : Symbols}

theorem KeepsOrder.keeps (ordered : r.KeepsOrder lines) (placed : vars.PlacedIn lines)
    (member : line ∈ lines) : r.Keeps vars line := by
  intro v known
  obtain ⟨name, type, scope, isFinal, initialization?⟩ := v
  cases initialization? with
  | none => rfl
  | some place =>
      obtain ⟨first, stored, number⟩ := placed _ known place rfl
      have order : decide (r.number place.line < r.number line.number) =
          decide (place.line < line.number) := by
        rw [number]
        exact decide_eq_decide.mpr (ordered first stored line member)
      simp only [Variable.isReadableAt, record, Renumbering.place, Option.map_some, order]

theorem located_renumbered {outcome : Except Cause Unit} :
    (r.line line).located outcome = r.verdict id (line.located outcome) := by
  cases outcome <;> rfl

theorem checkLines_renumbered {previous : Option LineKind}
    (keeps : ∀ line ∈ lines, r.Keeps symbols.vars line) :
    (r.symbols symbols).checkLines previous (lines.map r.line) =
      r.verdict id (symbols.checkLines previous lines) := by
  induction lines generalizing previous with
  | nil => rfl
  | cons line lines ih =>
      rw [List.forall_mem_cons] at keeps
      rw [List.map_cons, Symbols.checkLines, Symbols.checkLines, checkMeaning_renumbered keeps.1,
        located_renumbered]
      cases line.located (line.checkMeaning previous symbols) with
      | error => rfl
      | ok => exact ih keeps.2

theorem checkEnd_renumbered :
    Symbols.checkEnd (lines.map r.line) = r.verdict id (Symbols.checkEnd lines) := by
  rw [Symbols.checkEnd, Symbols.checkEnd, List.getLast?_map]
  cases lines.getLast? with
  | none => rfl
  | some last =>
      show (if last.scope.isGlobal = true then _ else _) =
        r.verdict id (if last.scope.isGlobal = true then _ else _)
      split <;> rfl

theorem check_renumbered (ordered : r.KeepsOrder lines) (placed : symbols.vars.PlacedIn lines) :
    (r.symbols symbols).check (lines.map r.line) =
      Prod.map r.symbols (r.verdict id) (symbols.check lines) := by
  have assigned : (r.symbols symbols).vars.assignLines (lines.map r.line) =
      Prod.map r.vars (r.verdict id) (symbols.vars.assignLines lines) := assignLines_renumbered
  rw [Symbols.check, Symbols.check, assigned]
  cases outcome : symbols.vars.assignLines lines with
  | mk vars result =>
      cases result with
      | error => rfl
      | ok =>
          have complete : vars.PlacedIn lines :=
            VariableTable.assignLines_eq outcome ▸ placed.given
          have walked : (r.symbols { symbols with vars }).checkLines none (lines.map r.line) =
              r.verdict id (({ symbols with vars } : Symbols).checkLines none lines) :=
            checkLines_renumbered fun line member => ordered.keeps complete member
          refine Prod.ext rfl ?_
          show (do
            (r.symbols { symbols with vars }).checkLines none (lines.map r.line)
            Symbols.checkEnd (lines.map r.line)) =
            r.verdict id (do
              ({ symbols with vars } : Symbols).checkLines none lines
              Symbols.checkEnd lines)
          rw [walked, checkEnd_renumbered]
          cases ({ symbols with vars } : Symbols).checkLines none lines <;> rfl

end

end Renumbering

end SJava
