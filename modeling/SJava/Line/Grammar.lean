import SJava.Line

/-!
# The grammar of lines

Each token of a line plays a role, and the kind of the line together with the role of one token
decides which tokens can come next and which roles they then play. A line is read by following its
tokens from role to role.
-/

namespace SJava

inductive Role
  | finalWord
  | typeWord
  | name
  | equals
  | value
  | comma
  | semicolon
  | voidWord
  | methodName
  | closeParen
  | openBrace
  | condition
  | operator
  | whole
  deriving DecidableEq, Repr

namespace Role

/-- Reads `type name [= value], name [= value] ;`, where after `final` no name goes without a
value. -/
def inDeclaration (isFinal : Bool) : Role → TokenKind → Option Role
  | .finalWord, kind => if kind.isTypeWord then some .typeWord else none
  | .typeWord, .variableName => some .name
  | .comma, .variableName => some .name
  | .name, .equals => some .equals
  | .name, .comma => if isFinal then none else some .comma
  | .name, .semicolon => if isFinal then none else some .semicolon
  | .equals, kind => if kind.isValue then some .value else none
  | .value, .comma => some .comma
  | .value, .semicolon => some .semicolon
  | _, _ => none

/-- Reads `name = value ;`. -/
def inAssignment : Role → TokenKind → Option Role
  | .name, .equals => some .equals
  | .equals, kind => if kind.isValue then some .value else none
  | .value, .semicolon => some .semicolon
  | _, _ => none

/-- Reads `method( value, value ) ;`. -/
def inCall : Role → TokenKind → Option Role
  | .methodName, .rightParen => some .closeParen
  | .methodName, kind => if kind.isValue then some .value else none
  | .comma, kind => if kind.isValue then some .value else none
  | .value, .comma => some .comma
  | .value, .rightParen => some .closeParen
  | .closeParen, .semicolon => some .semicolon
  | _, _ => none

/-- Reads `void method( [final] type name, [final] type name ) {`. -/
def inMethodHeader : Role → TokenKind → Option Role
  | .voidWord, .methodName => some .methodName
  | .methodName, .rightParen => some .closeParen
  | .methodName, .finalWord => some .finalWord
  | .methodName, kind => if kind.isTypeWord then some .typeWord else none
  | .comma, .finalWord => some .finalWord
  | .comma, kind => if kind.isTypeWord then some .typeWord else none
  | .finalWord, kind => if kind.isTypeWord then some .typeWord else none
  | .typeWord, .variableName => some .name
  | .name, .comma => some .comma
  | .name, .rightParen => some .closeParen
  | .closeParen, .leftBrace => some .openBrace
  | _, _ => none

/-- Reads `if( value && value || value ) {`. -/
def inCondition : Role → TokenKind → Option Role
  | .condition, kind => if kind.isAtom then some .value else none
  | .operator, kind => if kind.isAtom then some .value else none
  | .value, .andAnd => some .operator
  | .value, .orOr => some .operator
  | .value, .rightParen => some .closeParen
  | .closeParen, .leftBrace => some .openBrace
  | _, _ => none

end Role

namespace LineKind

def opening : LineKind → Role
  | .declaration => .typeWord
  | .finalDeclaration => .finalWord
  | .assignment => .name
  | .methodCall => .methodName
  | .methodHeader => .voidWord
  | .ifHeader | .whileHeader => .condition
  | .methodReturn | .closingBracket | .comment => .whole

/-- The role of a token that comes after one of a given role, if it may come there. -/
def next? : LineKind → Role → TokenKind → Option Role
  | .declaration => Role.inDeclaration false
  | .finalDeclaration => Role.inDeclaration true
  | .assignment => Role.inAssignment
  | .methodCall => Role.inCall
  | .methodHeader => Role.inMethodHeader
  | .ifHeader | .whileHeader => Role.inCondition
  | .methodReturn | .closingBracket | .comment => fun _ _ => none

def terminator? : LineKind → Option TokenKind
  | .declaration | .finalDeclaration | .assignment | .methodCall => some .semicolon
  | .methodHeader | .ifHeader | .whileHeader => some .leftBrace
  | .methodReturn | .closingBracket | .comment => none

/-- What may come after a token of a given role, in words. -/
def expectation (kind : LineKind) : Role → String
  | .finalWord => if kind = .methodHeader then "a parameter type" else "a type after 'final'"
  | .typeWord => if kind = .methodHeader then "a parameter name" else "a variable name"
  | .name =>
      match kind with
      | .declaration => "'=', ',' or ';'"
      | .finalDeclaration => "'=' (final variables must be initialized)"
      | .methodHeader => "',' or ')'"
      | _ => "'='"
  | .equals => "a value"
  | .value =>
      match kind with
      | .declaration | .finalDeclaration => "',' or ';'"
      | .methodCall => "',' or ')'"
      | .ifHeader | .whileHeader => "'&&', '||' or ')'"
      | _ => "';'"
  | .comma =>
      match kind with
      | .methodCall => "an argument"
      | .methodHeader => "a parameter type"
      | _ => "a variable name"
  | .semicolon => "nothing after ';'"
  | .voidWord => "a method name"
  | .methodName => if kind = .methodHeader then "a parameter type or ')'" else "an argument or ')'"
  | .closeParen => if kind = .methodCall then "';'" else "'\x7b'"
  | .openBrace => "nothing after '\x7b'"
  | .condition | .operator => "a variable or boolean, int or double literal"
  | .whole => "nothing"

end LineKind

end SJava
