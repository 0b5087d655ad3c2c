import SJava.ValueType

/-!
# Tokens

The kinds of token a line is made of, in the order in which the lexer tries them, and the tokens
themselves. Only the names of methods and variables are kept; every other token is its kind.
-/

namespace SJava

inductive TokenKind
  | doubleLiteral
  | intLiteral
  | stringLiteral
  | charLiteral
  | booleanLiteral
  | intWord
  | doubleWord
  | stringWord
  | charWord
  | booleanWord
  | voidWord
  | finalWord
  | ifOpen
  | whileOpen
  | returnWord
  | space
  | comma
  | leftBrace
  | rightBrace
  | leftParen
  | rightParen
  | equals
  | andAnd
  | orOr
  | semicolon
  | comment
  | methodName
  | variableName
  | other
  deriving DecidableEq, Repr

namespace TokenKind

def byPriority : List TokenKind :=
  [.doubleLiteral, .intLiteral, .stringLiteral, .charLiteral, .booleanLiteral,
    .intWord, .doubleWord, .stringWord, .charWord, .booleanWord, .voidWord, .finalWord,
    .ifOpen, .whileOpen, .returnWord, .space, .comma, .leftBrace, .rightBrace, .leftParen,
    .rightParen, .equals, .andAnd, .orOr, .semicolon, .comment, .methodName, .variableName,
    .other]

theorem mem_byPriority (kind : TokenKind) : kind ∈ byPriority := by
  cases kind <;> decide

def priority (kind : TokenKind) : Nat := byPriority.idxOf kind

def isTypeWord : TokenKind → Bool
  | .intWord | .doubleWord | .stringWord | .charWord | .booleanWord => true
  | _ => false

def isLiteral : TokenKind → Bool
  | .doubleLiteral | .intLiteral | .stringLiteral | .charLiteral | .booleanLiteral => true
  | _ => false

def isValue (kind : TokenKind) : Bool := kind.isLiteral || kind == .variableName

/-- What can stand in a condition: a variable or a literal of a type that conditions take. -/
def isAtom : TokenKind → Bool
  | .variableName | .booleanLiteral | .intLiteral | .doubleLiteral => true
  | _ => false

def valueType? : TokenKind → Option ValueType
  | .intWord | .intLiteral => some .int
  | .doubleWord | .doubleLiteral => some .double
  | .stringWord | .stringLiteral => some .string
  | .charWord | .charLiteral => some .char
  | .booleanWord | .booleanLiteral => some .boolean
  | _ => none

def declaredType? (kind : TokenKind) : Option ValueType :=
  if kind.isTypeWord then kind.valueType? else none

def label : TokenKind → String
  | .doubleLiteral => "double_val"
  | .intLiteral => "int_val"
  | .stringLiteral => "string_val"
  | .charLiteral => "char_val"
  | .booleanLiteral => "boolean_val"
  | .intWord => "int"
  | .doubleWord => "double"
  | .stringWord => "string"
  | .charWord => "char"
  | .booleanWord => "boolean"
  | .voidWord => "void"
  | .finalWord => "final"
  | .ifOpen => "if"
  | .whileOpen => "while"
  | .returnWord => "return"
  | .space => "whitespace"
  | .comma => "comma"
  | .leftBrace => "l_brace"
  | .rightBrace => "r_brace"
  | .leftParen => "l_paren"
  | .rightParen => "r_paren"
  | .equals => "equals"
  | .andAnd => "and_and"
  | .orOr => "or_or"
  | .semicolon => "semicolon"
  | .comment => "comment"
  | .methodName => "method_name"
  | .variableName => "var_name"
  | .other => "other"

def describe : TokenKind → String
  | .doubleLiteral => "double literal"
  | .intLiteral => "int literal"
  | .stringLiteral => "string literal"
  | .charLiteral => "char literal"
  | .booleanLiteral => "boolean literal"
  | .intWord => "'int'"
  | .doubleWord => "'double'"
  | .stringWord => "'String'"
  | .charWord => "'char'"
  | .booleanWord => "'boolean'"
  | .voidWord => "'void'"
  | .finalWord => "'final'"
  | .ifOpen => "'if ('"
  | .whileOpen => "'while ('"
  | .returnWord => "'return;'"
  | .space => "whitespace"
  | .comma => "','"
  | .leftBrace => "'\x7b'"
  | .rightBrace => "'\x7d'"
  | .leftParen => "'('"
  | .rightParen => "')'"
  | .equals => "'='"
  | .andAnd => "'&&'"
  | .orOr => "'||'"
  | .semicolon => "';'"
  | .comment => "'//'"
  | .methodName => "method name"
  | .variableName => "variable name"
  | .other => "unrecognized character"

end TokenKind

structure Token where
  kind : TokenKind
  name? : Option String := none
  deriving DecidableEq, Repr

/-- The name a token carries, empty where it carries none. -/
def Token.name (token : Token) : String := token.name?.getD ""

end SJava
