import SJava.Declarations
import SJava.Line.Form
import SJava.Token.Lexer

/-!
# The registry

The registry follows a program line by line. It knows the scope that the next line is read in, how
many `if` and `while` blocks there were, and what has been declared. A line that fails leaves behind
what it did before it failed.
-/

namespace SJava

structure Registry where
  scope : Scope := .global
  ifCount : UInt32 := 0
  whileCount : UInt32 := 0
  symbols : Symbols := {}
  deriving DecidableEq, Repr

namespace Registry

def declareVariables (registry : Registry) (line : Line) : Registry × Except Cause Line :=
  let (vars, outcome) := registry.symbols.vars.declareAll line.declared
  ({ registry with symbols := { registry.symbols with vars } }, outcome.map fun _ => line)

/-- Enters the body of a method, then declares the method, then its parameters. -/
def declareMethod (registry : Registry) (line : Line) : Registry × Except Cause Line :=
  match line.header? with
  | none => (registry, .ok line)
  | some (name, parameters) =>
      let body := registry.scope.child (.method name)
      let entered := { registry with scope := body }
      match registry.symbols.methods.declare ⟨name, parameters.map Parameter.type⟩ with
      | .error cause => (entered, .error cause)
      | .ok methods =>
          let (vars, outcome) :=
            registry.symbols.vars.declareAll (parameters.map (·.toVariable line.number body))
          ({ entered with symbols := { vars, methods } }, outcome.map fun _ => line)

/-- Takes in a line and puts its scope on it: the scope around it, which for a closing bracket is
the one that it returns to. -/
def register (registry : Registry) (line : Line) : Registry × Except Cause Line :=
  let here := { line with scope := registry.scope }
  match line.kind with
  | .declaration | .finalDeclaration => registry.declareVariables here
  | .methodHeader => registry.declareMethod here
  | .ifHeader =>
      let number := registry.ifCount + 1
      ({ registry with scope := registry.scope.child (.ifBlock number), ifCount := number },
        .ok here)
  | .whileHeader =>
      let number := registry.whileCount + 1
      ({ registry with scope := registry.scope.child (.whileBlock number), whileCount := number },
        .ok here)
  | .closingBracket =>
      match registry.scope.pop? with
      | none => (registry, .error .unopened)
      | some (_, outer) => ({ registry with scope := outer }, .ok { line with scope := outer })
  | .assignment | .methodCall | .comment | .methodReturn => (registry, .ok here)

def enter (registry : Registry) (number : UInt32) (text : String) :
    Registry × Except Cause Line :=
  match Line.ofTokens number (tokens text) with
  | .error cause => (registry, .error cause)
  | .ok line => registry.register line

def enterAll (registry : Registry) (count : UInt32) :
    List String → Except Fault (Registry × List Line)
  | [] => .ok (registry, [])
  | text :: rest =>
      match registry.enter (count + 1) text with
      | (_, .error cause) => .error ⟨count + 1, cause⟩
      | (registry, .ok line) =>
          (registry.enterAll (count + 1) rest).map fun (last, lines) => (last, line :: lines)

end Registry

end SJava
