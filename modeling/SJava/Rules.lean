import SJava.Declarations
import SJava.Line.Form

/-!
# The rules of meaning

Once all lines are known, the first value of each variable is looked up, every line is checked
against the symbols of the program, and the last line has to be back at top level.
-/

namespace SJava

def Variable.checkReadable (v : Variable) (line : Line) : Except Cause Unit :=
  if v.isReadableAt line.number line.scope then .ok () else .error (.uninitialized v.name)

namespace VariableTable

/-- The type of a value: that of a literal, or of a variable that can be read on the line. -/
def valueType (vars : VariableTable) (line : Line) (token : Token) :
    Except Cause ValueType :=
  if token.kind = .variableName then do
    let v ← vars.resolve token.name line.scope
    v.checkReadable line
    return v.type
  else
    match token.kind.valueType? with
    | some type => .ok type
    | none => .error (.notValue token.kind)

def assignLines (vars : VariableTable) : List Line → VariableTable × Except Fault Unit
  | [] => (vars, .ok ())
  | line :: rest =>
      match vars.assignAll ⟨line.number, line.scope⟩ line.written with
      | (vars, .error cause) => (vars, .error ⟨line.number, cause⟩)
      | (vars, .ok ()) => vars.assignLines rest

end VariableTable

namespace Line

/-- An initializer has to fit the type of the name before it, which the reading carries along. -/
def visitInitializer (line : Line) (vars : VariableTable) (name : String) :
    Role → Token → Except Cause String
  | .name, token => .ok token.name
  | .value, token => do
      let target ← vars.resolve name line.scope
      let found ← vars.valueType line token
      if target.type.accepts found then return name
      else throw (.initializerType name target.type found)
  | _, _ => .ok name

def checkDeclaration (line : Line) (vars : VariableTable) : Except Cause Unit := do
  let _ ← line.read (line.visitInitializer vars) ""
  return ()

def visitAssigned (line : Line) (vars : VariableTable) (target : Variable) :
    Role → Token → Except Cause Unit
  | .value, token => do
      let found ← vars.valueType line token
      if target.type.accepts found then return ()
      else throw (.assignedType target.name target.type found)
  | _, _ => .ok ()

/-- The target of an assignment is visible, is not final, and takes the value. -/
def checkAssignment (line : Line) (vars : VariableTable) : Except Cause Unit := do
  let target ← vars.resolve line.subject line.scope
  if target.isFinal then throw (.finalReassigned target.name)
  line.read (fun _ => line.visitAssigned vars target) ()

def checkHeader (line : Line) : Except Cause Unit :=
  if line.scope.isGlobal then .ok () else .error (.nestedMethod line.scope)

def visitArgument (line : Line) (vars : VariableTable) (types : List ValueType) :
    Role → Token → Except Cause (List ValueType)
  | .value, token => do
      let type ← vars.valueType line token
      return types ++ [type]
  | _, _ => .ok types

def checkArguments (method : String) (position : Nat) :
    List ValueType → List ValueType → Except Cause Unit
  | expected :: parameters, found :: arguments =>
      if expected.accepts found then checkArguments method (position + 1) parameters arguments
      else .error (.argumentType position method expected found)
  | _, _ => .ok ()

/-- A call stands inside a method, and its arguments fit the parameters of the method it names. -/
def checkCall (line : Line) (symbols : Symbols) : Except Cause Unit := do
  if line.scope.isGlobal then throw (.globalCall line.subject)
  let method ← symbols.methods.resolve line.subject
  let types ← line.read (line.visitArgument symbols.vars) []
  if types.length ≠ method.parameters.length then
    throw (.argumentCount method.name method.parameters.length types.length)
  checkArguments method.name 1 method.parameters types

def visitAtom (line : Line) (vars : VariableTable) : Role → Token → Except Cause Unit
  | .value, token =>
      if token.kind = .variableName then do
        let v ← vars.resolve token.name line.scope
        if !v.type.isCondition then throw (.conditionType v.name v.type)
        v.checkReadable line
      else .ok ()
  | _, _ => .ok ()

/-- A condition stands inside a method, and its variables have types that conditions take. -/
def checkCondition (line : Line) (vars : VariableTable) : Except Cause Unit := do
  if line.scope.isGlobal then throw .globalCondition
  line.read (fun _ => line.visitAtom vars) ()

def checkReturn (line : Line) : Except Cause Unit :=
  if line.scope.isGlobal then .error .globalReturn else .ok ()

/-- The bracket that ends a method comes right after a return. -/
def checkClosing (line : Line) (previous : Option LineKind) : Except Cause Unit :=
  if line.scope.isGlobal && previous != some .methodReturn then .error .missingReturn else .ok ()

def checkMeaning (line : Line) (previous : Option LineKind) (symbols : Symbols) :
    Except Cause Unit :=
  match line.kind with
  | .declaration | .finalDeclaration => line.checkDeclaration symbols.vars
  | .assignment => line.checkAssignment symbols.vars
  | .methodHeader => line.checkHeader
  | .methodCall => line.checkCall symbols
  | .ifHeader | .whileHeader => line.checkCondition symbols.vars
  | .methodReturn => line.checkReturn
  | .closingBracket => line.checkClosing previous
  | .comment => .ok ()

end Line

namespace Symbols

def checkLines (symbols : Symbols) (previous : Option LineKind) :
    List Line → Except Fault Unit
  | [] => .ok ()
  | line :: rest =>
      match line.located (line.checkMeaning previous symbols) with
      | .error fault => .error fault
      | .ok () => symbols.checkLines (some line.kind) rest

/-- The scope on the last line of a program is the top level. -/
def checkEnd (lines : List Line) : Except Fault Unit :=
  match lines.getLast? with
  | none => .ok ()
  | some last =>
      if last.scope.isGlobal then .ok () else .error ⟨last.number, .unclosed last.scope⟩

/-- Checks a whole program. The symbols that come back know the first value of each variable, up
to the fault if there is one. -/
def check (symbols : Symbols) (lines : List Line) : Symbols × Except Fault Unit :=
  match symbols.vars.assignLines lines with
  | (vars, .error fault) => ({ symbols with vars }, .error fault)
  | (vars, .ok ()) =>
      let complete := { symbols with vars }
      (complete, do complete.checkLines none lines; checkEnd lines)

end Symbols

end SJava
