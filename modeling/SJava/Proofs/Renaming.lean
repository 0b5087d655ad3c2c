import SJava.Proofs.Registration
import SJava.Proofs.Relabelling

/-!
# Renaming

A renaming gives every variable and every method another name. What is read from the tokens of a
line, what a name stands for in the tables and what a line adds to them moves along with it: each of
these comes out as it would have, renamed, and fails for the same cause, renamed
(`Renaming.result`).
-/

namespace SJava

/-- A change of names that keeps different names apart. -/
structure Renaming where
  variableName : String → String
  methodName : String → String
  variableName_injective : Function.Injective variableName
  methodName_injective : Function.Injective methodName

namespace Renaming

variable (r : Renaming)

def token (token : Token) : Token :=
  match token.kind with
  | .variableName => { token with name? := some (r.variableName token.name) }
  | .methodName => { token with name? := some (r.methodName token.name) }
  | _ => token

def segment : Segment → Segment
  | .method name => .method (r.methodName name)
  | segment => segment

def scope (scope : Scope) : Scope := ⟨scope.path.map r.segment⟩

def place (place : Initialization) : Initialization := { place with scope := r.scope place.scope }

def record (v : Variable) : Variable :=
  { v with
    name := r.variableName v.name
    scope := r.scope v.scope
    initialization? := v.initialization?.map r.place }

def method (method : Method) : Method := { method with name := r.methodName method.name }

def vars (vars : VariableTable) : VariableTable := vars.map r.record

def methods (methods : MethodTable) : MethodTable := ⟨methods.records.map r.method⟩

def symbols (symbols : Symbols) : Symbols := ⟨r.vars symbols.vars, r.methods symbols.methods⟩

def line (line : Line) : Line :=
  { line with scope := r.scope line.scope, tokens := line.tokens.map r.token }

def registry (registry : Registry) : Registry :=
  { registry with scope := r.scope registry.scope, symbols := r.symbols registry.symbols }

def verifier (verifier : Verifier) : Verifier :=
  ⟨r.registry verifier.registry, verifier.lines.map r.line⟩

def program (program : Program) : Program :=
  ⟨program.lines.map r.line, r.symbols program.symbols⟩

def parameter (parameter : Parameter) : Parameter :=
  { parameter with name := r.variableName parameter.name }

def cause : Cause → Cause
  | .redeclared name scope => .redeclared (r.variableName name) (r.scope scope)
  | .methodRedeclared name => .methodRedeclared (r.methodName name)
  | .unknownMethod name => .unknownMethod (r.methodName name)
  | .argumentCount method expected given => .argumentCount (r.methodName method) expected given
  | .argumentType position method expected found =>
      .argumentType position (r.methodName method) expected found
  | .initializerType name declared found => .initializerType (r.variableName name) declared found
  | .assignedType name declared found => .assignedType (r.variableName name) declared found
  | .conditionType name type => .conditionType (r.variableName name) type
  | .unbound name scope => .unbound (r.variableName name) (r.scope scope)
  | .uninitialized name => .uninitialized (r.variableName name)
  | .finalReassigned name => .finalReassigned (r.variableName name)
  | .nestedMethod scope => .nestedMethod (r.scope scope)
  | .globalCall method => .globalCall (r.methodName method)
  | .unclosed scope => .unclosed (r.scope scope)
  | cause => cause

def fault (fault : Fault) : Fault := { fault with cause := r.cause fault.cause }

/-- What a step that comes out with `outcome` comes out with after a renaming. -/
def result {α β : Type} (f : α → β) (outcome : Except Cause α) : Except Cause β :=
  (outcome.map f).mapError r.cause

def verdict {α β : Type} (f : α → β) (outcome : Except Fault α) : Except Fault β :=
  (outcome.map f).mapError r.fault

theorem kind_cause (cause : Cause) : (r.cause cause).kind = cause.kind := by
  cases cause <;> rfl

/-! ## Tokens -/

section Tokens

variable {r} {token : Token} {tokens : List Token}

@[simp] theorem kind_token : (r.token token).kind = token.kind := by
  rw [Renaming.token]
  split <;> rfl

theorem name_variable (kind : token.kind = .variableName) :
    (r.token token).name = r.variableName token.name := by
  simp only [Renaming.token, kind]
  rfl

theorem name_method (kind : token.kind = .methodName) :
    (r.token token).name = r.methodName token.name := by
  simp only [Renaming.token, kind]
  rfl

theorem namesAfter_renamed {atName : Bool} :
    namesAfter atName (tokens.map r.token) = (namesAfter atName tokens).map r.variableName := by
  induction tokens generalizing atName with
  | nil => rfl
  | cons token tokens ih =>
      rw [List.map_cons, namesAfter, namesAfter, kind_token, ih]
      split
      · rename_i named
        rw [name_variable (beq_iff_eq.mp (Bool.and_eq_true_iff.mp named).2), List.map_cons]
      · rfl

theorem writtenNames_renamed :
    writtenNames (tokens.map r.token) = (writtenNames tokens).map r.variableName := by
  induction tokens with
  | nil => rfl
  | cons name tokens ih =>
      cases tokens with
      | nil => rfl
      | cons next rest =>
          rw [List.map_cons] at ih
          rw [List.map_cons, List.map_cons, writtenNames, writtenNames, kind_token, kind_token, ih]
          split
          · rename_i named
            rw [name_variable (beq_iff_eq.mp (Bool.and_eq_true_iff.mp named).1), List.map_cons]
          · rfl

theorem ne_of_kind {kind : TokenKind} {name? : Option String} (other : token.kind ≠ kind) :
    r.token token ≠ ⟨kind, name?⟩ := by
  intro same
  rw [← kind_token (r := r), same] at other
  exact other rfl

theorem parametersAfter_renamed {isFinal : Bool} :
    parametersAfter isFinal (tokens.map r.token) =
      (parametersAfter isFinal tokens).map r.parameter := by
  fun_induction parametersAfter isFinal tokens with
  | case1 name? rest =>
      show parametersAfter true (⟨.finalWord, name?⟩ :: rest.map r.token) = []
      rw [parametersAfter, if_pos rfl]
  | case2 isFinal name? rest notFinal ih =>
      show parametersAfter isFinal (⟨.finalWord, name?⟩ :: rest.map r.token) = _
      rw [parametersAfter, if_neg notFinal, ih]
  | case3 isFinal type name rest notFinal declared named typed ih =>
      have word : type.kind ≠ .finalWord := fun kind => notFinal type.name? (by rw [← kind])
      rw [List.map_cons]
      split at ih
      · rename_i comma more
        show parametersAfter isFinal
          (r.token type :: r.token name :: ⟨.comma, comma⟩ :: more.map r.token) = _
        rw [parametersAfter]
        · simp only [kind_token, typed, named, name_variable named, ih]
          rfl
        · exact fun _ => ne_of_kind word
      · rename_i last
        have notComma (name? : Option String) (more : List Token) :
            rest.map r.token ≠ ⟨.comma, name?⟩ :: more := by
          intro same
          obtain ⟨next, after, rfl, comma, -⟩ := List.map_eq_cons_iff.mp same
          refine ne_of_kind (fun kind => last next.name? after ?_) comma
          rw [← kind]
        rw [List.map_cons, parametersAfter]
        · simp only [kind_token, typed, named, name_variable named]
          rfl
        · exact fun _ => ne_of_kind word
        · exact notComma
  | case4 isFinal type name rest notFinal other =>
      have word : type.kind ≠ .finalWord := fun kind => notFinal type.name? (by rw [← kind])
      rw [List.map_cons, List.map_cons, parametersAfter.eq_def]
      split
      · rename_i same
        exact absurd (List.cons.inj same).1 (ne_of_kind word)
      · rename_i same
        obtain ⟨rfl, rest⟩ := List.cons.inj same
        obtain ⟨rfl, rfl⟩ := List.cons.inj rest
        rw [kind_token, kind_token]
        split
        · rename_i typed named
          exact (other _ typed named).elim
        · rfl
      · rfl
  | case5 tokens isFinal notFinal short =>
      rcases tokens with _ | ⟨type, _ | ⟨name, rest⟩⟩
      · rfl
      · have word : type.kind ≠ .finalWord := fun kind => notFinal type.name? [] (by rw [← kind])
        rw [List.map_singleton, parametersAfter.eq_def]
        split
        · rename_i same
          exact absurd (List.cons.inj same).1 (ne_of_kind word)
        · rename_i same
          cases (List.cons.inj same).2
        · rfl
      · exact (short type name rest rfl).elim

end Tokens

/-! ## Scopes and tables -/

section Tables

variable {r} {table : VariableTable} {name : String} {scope outer : Scope} {v : Variable}

theorem segment_injective : Function.Injective r.segment := by
  intro first second same
  cases first <;> cases second <;>
    simp_all [Renaming.segment, r.methodName_injective.eq_iff]

theorem scope_injective : Function.Injective r.scope := by
  rintro ⟨first⟩ ⟨second⟩ same
  have paths : first.map r.segment = second.map r.segment := congrArg Scope.path same
  rw [List.map_injective_iff.mpr segment_injective paths]

theorem isGlobal_renamed : (r.scope scope).isGlobal = scope.isGlobal := by
  obtain ⟨path⟩ := scope
  cases path <;> rfl

theorem enclosing_renamed : (r.scope scope).enclosing = scope.enclosing.map r.scope :=
  Scope.outwards_map r.segment scope.path

def relabelling (r : Renaming) : Relabelling :=
  { name := r.variableName
    scope := r.scope
    place := r.place
    name_injective := r.variableName_injective
    scope_injective := scope_injective
    enclosing := fun _ => enclosing_renamed }

theorem find?_renamed : (r.vars table).find? (r.variableName name) (r.scope scope) =
    (table.find? name scope).map r.record :=
  r.relabelling.find?_relabelled

theorem resolve_renamed : (r.vars table).resolve (r.variableName name) (r.scope scope) =
    r.result r.record (table.resolve name scope) := by
  have found : (r.vars table).lookup? (r.variableName name) (r.scope scope) =
      (table.lookup? name scope).map r.record := r.relabelling.lookup?_relabelled
  rw [VariableTable.resolve, VariableTable.resolve, found]
  cases table.lookup? name scope <;> rfl

theorem declare_renamed :
    (r.vars table).declare (r.record v) = r.result r.vars (table.declare v) := by
  have found : (r.vars table).find? (r.record v).name (r.record v).scope =
      (table.find? v.name v.scope).map r.record := find?_renamed
  rw [VariableTable.declare, VariableTable.declare, found]
  cases table.find? v.name v.scope with
  | some => rfl
  | none =>
      have records : (r.vars table).records ++ [r.record v] =
          (table.records ++ [v]).map r.record := by
        rw [List.map_append]
        rfl
      rw [records]
      rfl

theorem declareAll_renamed {vs : List Variable} :
    (r.vars table).declareAll (vs.map r.record) =
      Prod.map r.vars (r.result id) (table.declareAll vs) := by
  induction vs generalizing table with
  | nil => rfl
  | cons v vs ih =>
      rw [List.map_cons, VariableTable.declareAll, VariableTable.declareAll, declare_renamed]
      cases table.declare v with
      | error => rfl
      | ok => exact ih

theorem find?_method {methods : MethodTable} :
    (r.methods methods).find? (r.methodName name) = (methods.find? name).map r.method := by
  have same : (fun m : Method => m.name == r.methodName name) ∘ r.method =
      fun m => m.name == name := by
    funext m
    exact (Bool.eq_iff_iff.mpr (by simp [Renaming.method, r.methodName_injective.eq_iff]))
  rw [MethodTable.find?, MethodTable.find?, Renaming.methods, List.find?_map, same]

theorem resolve_method {methods : MethodTable} :
    (r.methods methods).resolve (r.methodName name) =
      r.result r.method (methods.resolve name) := by
  rw [MethodTable.resolve, MethodTable.resolve, find?_method]
  cases methods.find? name <;> rfl

theorem declare_method {methods : MethodTable} {m : Method} :
    (r.methods methods).declare (r.method m) = r.result r.methods (methods.declare m) := by
  have found : (r.methods methods).find? (r.method m).name = (methods.find? m.name).map r.method :=
    find?_method
  rw [MethodTable.declare, MethodTable.declare, found]
  cases methods.find? m.name with
  | some => rfl
  | none =>
      have records : (r.methods methods).records ++ [r.method m] =
          (methods.records ++ [m]).map r.method := by
        rw [List.map_append]
        rfl
      rw [records]
      rfl

end Tables

/-! ## Lines -/

section Lines

variable {r} {line : Line} {registry : Registry}

theorem written_renamed : (r.line line).written = line.written.map r.variableName := by
  rw [Line.written, Line.written]
  show (if line.kind.assigns = true then writtenNames (line.tokens.map r.token) else []) = _
  rw [writtenNames_renamed]
  split <;> rfl

theorem declared_renamed : (r.line line).declared = line.declared.map r.record := by
  rw [Line.declared, Line.declared]
  have tokens : (if line.kind == .finalDeclaration then (r.line line).tokens.tail
      else (r.line line).tokens) =
      (if line.kind == .finalDeclaration then line.tokens.tail else line.tokens).map r.token := by
    split
    · exact List.map_tail.symm
    · rfl
  simp only [show (r.line line).kind = line.kind from rfl, tokens]
  cases (if line.kind == .finalDeclaration then line.tokens.tail else line.tokens) with
  | nil => rfl
  | cons type rest =>
      simp only [List.map_cons, kind_token]
      cases type.kind.declaredType? with
      | none => rfl
      | some =>
          simp only [namesAfter_renamed, List.map_map]
          rfl

theorem header?_renamed : (r.line line).header? =
    line.header?.map (Prod.map r.methodName (List.map r.parameter)) := by
  have skipped : (fun token : Token => token.kind != .methodName) ∘ r.token =
      fun token => token.kind != .methodName := by
    funext token
    exact congrArg (· != TokenKind.methodName) kind_token
  have renamed : (r.line line).tokens = line.tokens.map r.token := rfl
  rw [Line.header?, Line.header?, renamed, List.dropWhile_map, skipped]
  cases found : line.tokens.dropWhile (·.kind != .methodName) with
  | nil => rfl
  | cons method rest =>
      have named : method.kind = .methodName := by
        have stops := List.head_dropWhile_not (fun token : Token => token.kind != .methodName)
          (l := line.tokens) (by simp [found])
        simpa [found] using stops
      simp only [List.map_cons, name_method named, parametersAfter_renamed]
      rfl

theorem declareVariables_renamed (line : Line) (registry : Registry) :
    (r.registry registry).declareVariables (r.line line) =
      Prod.map r.registry (r.result r.line) (registry.declareVariables line) := by
  have declared : (r.registry registry).symbols.vars.declareAll (r.line line).declared =
      Prod.map r.vars (r.result id) (registry.symbols.vars.declareAll line.declared) := by
    rw [declared_renamed]
    exact declareAll_renamed
  rw [Registry.declareVariables, Registry.declareVariables, declared]
  rcases registry.symbols.vars.declareAll line.declared with ⟨vars, _ | _⟩ <;> rfl

theorem declareMethod_renamed (line : Line) (registry : Registry) :
    (r.registry registry).declareMethod (r.line line) =
      Prod.map r.registry (r.result r.line) (registry.declareMethod line) := by
  rw [Registry.declareMethod, Registry.declareMethod, header?_renamed]
  rcases line.header? with _ | ⟨name, parameters⟩
  · rfl
  · have types : (parameters.map r.parameter).map Parameter.type =
        parameters.map Parameter.type := by
      rw [List.map_map]
      rfl
    have records (number : UInt32) (body : Scope) :
        (parameters.map r.parameter).map (·.toVariable number (r.scope body)) =
          (parameters.map (·.toVariable number body)).map r.record := by
      rw [List.map_map, List.map_map]
      rfl
    have methods : (r.registry registry).symbols.methods.declare
        ⟨r.methodName name, (parameters.map r.parameter).map Parameter.type⟩ =
        r.result r.methods
          (registry.symbols.methods.declare ⟨name, parameters.map Parameter.type⟩) := by
      rw [types]
      exact declare_method (r := r) (m := ⟨name, parameters.map Parameter.type⟩)
    have vars : (r.registry registry).symbols.vars.declareAll
        ((parameters.map r.parameter).map (·.toVariable (r.line line).number
          ((r.registry registry).scope.child (.method (r.methodName name))))) =
        Prod.map r.vars (r.result id) (registry.symbols.vars.declareAll
          (parameters.map (·.toVariable line.number (registry.scope.child (.method name))))) := by
      rw [← declareAll_renamed, ← records]
      rfl
    simp only [Option.map_some, Prod.map_apply]
    rw [methods]
    cases registry.symbols.methods.declare ⟨name, parameters.map Parameter.type⟩ with
    | error => rfl
    | ok methods =>
        show (_, _) = Prod.map r.registry (r.result r.line) (_, _)
        rw [vars]
        generalize registry.symbols.vars.declareAll _ = declared
        rcases declared with ⟨next, _ | _⟩ <;> rfl

theorem register_renamed (line : Line) (registry : Registry) :
    (r.registry registry).register (r.line line) =
      Prod.map r.registry (r.result r.line) (registry.register line) := by
  obtain ⟨number, kind, around, tokens⟩ := line
  cases kind with
  | declaration =>
      exact declareVariables_renamed ⟨number, .declaration, registry.scope, tokens⟩ registry
  | finalDeclaration =>
      exact declareVariables_renamed ⟨number, .finalDeclaration, registry.scope, tokens⟩ registry
  | methodHeader =>
      exact declareMethod_renamed ⟨number, .methodHeader, registry.scope, tokens⟩ registry
  | closingBracket =>
      obtain ⟨⟨path⟩, ifCount, whileCount, symbols⟩ := registry
      cases path <;> rfl
  | ifHeader | whileHeader | assignment | methodCall | comment | methodReturn => rfl

end Lines

end Renaming

end SJava
