import SJava.Declarations

/-!
# The outline of a program

The scopes that a program opens, in order, and its symbols sorted along them.
-/

namespace SJava

/-- The scopes that lines open after some `if` and `while` blocks have been opened. -/
def openedScopes (ifs whiles : UInt32) : List Line → List Scope
  | [] => []
  | line :: rest =>
      match line.kind with
      | .ifHeader => line.scope.child (.ifBlock (ifs + 1)) :: openedScopes (ifs + 1) whiles rest
      | .whileHeader =>
          line.scope.child (.whileBlock (whiles + 1)) :: openedScopes ifs (whiles + 1) rest
      | .methodHeader =>
          match line.header? with
          | some (name, _) => line.scope.child (.method name) :: openedScopes ifs whiles rest
          | none => openedScopes ifs whiles rest
      | _ => openedScopes ifs whiles rest

namespace Symbols

/-- The variables that some scopes declare, sorted by name and then in the order of the scopes. -/
def variablesIn (symbols : Symbols) (scopes : List Scope) : List Variable :=
  let place (v : Variable) : Nat := scopes.idxOf v.scope
  (symbols.vars.records.filter fun v => scopes.contains v.scope).mergeSort fun v w =>
    v.name < w.name || (v.name == w.name && place v ≤ place w)

def sortedMethods (symbols : Symbols) : List Method :=
  symbols.methods.records.mergeSort fun m n => m.name ≤ n.name

def inventory (symbols : Symbols) (lines : List Line) : List Variable × List Method :=
  (symbols.variablesIn (.global :: openedScopes 0 0 lines), symbols.sortedMethods)

def namesIn (lines : List Line) (kind : TokenKind) : List String :=
  lines.flatMap fun line => (line.tokens.filter (·.kind == kind)).map Token.name

/-- The symbols that some lines mention, sorted: their names are on the lines, and so are the scopes
of the variables. -/
def mentionedIn (symbols : Symbols) (lines : List Line) : List Variable × List Method :=
  let variableNames := namesIn lines .variableName
  let methodNames := namesIn lines .methodName
  ((symbols.variablesIn (.global :: lines.map Line.scope)).filter fun v =>
      variableNames.contains v.name,
    symbols.sortedMethods.filter fun m => methodNames.contains m.name)

end Symbols

end SJava
