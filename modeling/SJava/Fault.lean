import SJava.Line.Grammar

/-!
# Faults

The ways in which a line can be wrong, the words for each, and the stage of verification that it
belongs to. A fault is such a cause together with the number of its line.
-/

namespace SJava

inductive Phase
  | tokens
  | declarations
  | form
  | meaning
  | nesting
  deriving DecidableEq, Repr

def Phase.label : Phase → String
  | .tokens => "lex"
  | .declarations => "build"
  | .form => "syntax"
  | .meaning => "semantics"
  | .nesting => "scope"

inductive FaultKind
  | malformedLine
  | form
  | duplicateDeclaration
  | duplicateMethod
  | unknownMethod
  | mismatch
  | unboundVariable
  | uninitializedUse
  | finalReassignment
  | illegalScope
  | unbalancedBrackets
  deriving DecidableEq, Repr

namespace FaultKind

def all : List FaultKind :=
  [.malformedLine, .form, .duplicateDeclaration, .duplicateMethod, .unknownMethod, .mismatch,
    .unboundVariable, .uninitializedUse, .finalReassignment, .illegalScope, .unbalancedBrackets]

def label : FaultKind → String
  | .malformedLine => "malformed_line"
  | .form => "syntax"
  | .duplicateDeclaration => "duplicate_declaration"
  | .duplicateMethod => "duplicate_method"
  | .unknownMethod => "unknown_method"
  | .mismatch => "arity_or_type_mismatch"
  | .unboundVariable => "unbound_variable"
  | .uninitializedUse => "uninitialized_use"
  | .finalReassignment => "final_reassignment"
  | .illegalScope => "illegal_scope"
  | .unbalancedBrackets => "unbalanced_brackets"

def phase : FaultKind → Phase
  | .malformedLine => .tokens
  | .duplicateDeclaration | .duplicateMethod => .declarations
  | .form => .form
  | .unbalancedBrackets => .nesting
  | _ => .meaning

end FaultKind

inductive Cause
  | noTokens
  | badStart (first : TokenKind)
  | badEnd (expected : TokenKind) (last : Option TokenKind)
  | notAlone (first extra : TokenKind)
  | unexpected (kind : LineKind) (role : Role) (found : TokenKind)
  | notValue (found : TokenKind)
  | redeclared (name : String) (scope : Scope)
  | methodRedeclared (name : String)
  | unknownMethod (name : String)
  | argumentCount (method : String) (expected given : Nat)
  | argumentType (position : Nat) (method : String) (expected found : ValueType)
  | initializerType (name : String) (declared found : ValueType)
  | assignedType (name : String) (declared found : ValueType)
  | conditionType (name : String) (type : ValueType)
  | unbound (name : String) (scope : Scope)
  | uninitialized (name : String)
  | finalReassigned (name : String)
  | nestedMethod (scope : Scope)
  | globalCall (method : String)
  | globalCondition
  | globalReturn
  | missingReturn
  | unopened
  | unclosed (scope : Scope)
  deriving DecidableEq, Repr

namespace Cause

def kind : Cause → FaultKind
  | .noTokens | .badStart _ => .malformedLine
  | .badEnd .. | .notAlone .. | .unexpected .. | .notValue _ => .form
  | .redeclared .. => .duplicateDeclaration
  | .methodRedeclared _ => .duplicateMethod
  | .unknownMethod _ => .unknownMethod
  | .argumentCount .. | .argumentType .. => .mismatch
  | .initializerType .. | .assignedType .. | .conditionType .. => .mismatch
  | .unbound .. => .unboundVariable
  | .uninitialized _ => .uninitializedUse
  | .finalReassigned _ => .finalReassignment
  | .nestedMethod _ | .globalCall _ | .globalCondition | .globalReturn => .illegalScope
  | .missingReturn => .illegalScope
  | .unopened | .unclosed _ => .unbalancedBrackets

def message : Cause → String
  | .noTokens => "no legal tokens in line"
  | .badStart first => "line cannot start with " ++ first.describe
  | .badEnd expected last =>
      "line must end with " ++ expected.describe ++ ", found " ++
        (last.map TokenKind.describe).getD "nothing"
  | .notAlone first extra =>
      first.describe ++ " must stand alone on its line, found " ++ extra.describe
  | .unexpected kind role found =>
      "expected " ++ kind.expectation role ++ ", found " ++ found.describe
  | .notValue found => "expected a value, found " ++ found.describe
  | .redeclared name scope =>
      "variable '" ++ name ++ "' is already declared in scope " ++ scope.text
  | .methodRedeclared name => "method '" ++ name ++ "' is already declared"
  | .unknownMethod name => "method '" ++ name ++ "' is not declared"
  | .argumentCount method expected given =>
      "method '" ++ method ++ "' takes " ++ expected.repr ++ " argument(s) but " ++ given.repr ++
        " were given"
  | .argumentType position method expected found =>
      "argument " ++ position.repr ++ " of '" ++ method ++ "' expects " ++ expected.word ++
        ", found " ++ found.word
  | .initializerType name declared found =>
      "cannot initialize " ++ declared.word ++ " '" ++ name ++ "' with a " ++ found.word ++ " value"
  | .assignedType name declared found =>
      "cannot assign a " ++ found.word ++ " value to " ++ declared.word ++ " '" ++ name ++ "'"
  | .conditionType name type =>
      "'" ++ name ++ "' is " ++ type.word ++ " and cannot be used as a condition"
  | .unbound name scope => "variable '" ++ name ++ "' is not declared in scope " ++ scope.text
  | .uninitialized name => "variable '" ++ name ++ "' is used before it is initialized"
  | .finalReassigned name => "cannot assign to final variable '" ++ name ++ "'"
  | .nestedMethod scope => "method declared inside " ++ scope.text
  | .globalCall method => "call to '" ++ method ++ "' outside a method body"
  | .globalCondition => "condition outside a method body"
  | .globalReturn => "return outside a method body"
  | .missingReturn => "missing return statement"
  | .unopened => "closing bracket without a matching block"
  | .unclosed scope => "end of file reached inside " ++ scope.text

end Cause

structure Fault where
  line : UInt32
  cause : Cause
  deriving DecidableEq, Repr

namespace Line

def fault (line : Line) (cause : Cause) : Fault := ⟨line.number, cause⟩

/-- The outcome of a check of a line. What is wrong is found at the line's own number. -/
def located {α : Type} (line : Line) (outcome : Except Cause α) : Except Fault α :=
  outcome.mapError line.fault

end Line

structure Diagnostic where
  kind : FaultKind
  line : UInt32
  message : String
  deriving DecidableEq, Repr

def Fault.diagnostic (fault : Fault) : Diagnostic :=
  ⟨fault.cause.kind, fault.line, fault.cause.message⟩

namespace Diagnostic

def phase (diagnostic : Diagnostic) : Phase := diagnostic.kind.phase

def text (diagnostic : Diagnostic) : String :=
  "line " ++ diagnostic.line.toNat.repr ++ ": " ++ diagnostic.message

end Diagnostic

end SJava
