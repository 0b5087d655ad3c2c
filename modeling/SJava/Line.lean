import SJava.Scope
import SJava.Token

/-!
# Lines

A program is a list of lines, and the first token of a line says of which kind the line is.
-/

namespace SJava

inductive LineKind
  | finalDeclaration
  | declaration
  | assignment
  | methodHeader
  | methodCall
  | comment
  | methodReturn
  | ifHeader
  | whileHeader
  | closingBracket
  deriving DecidableEq, Repr

namespace LineKind

def all : List LineKind :=
  [.finalDeclaration, .declaration, .assignment, .methodHeader, .methodCall, .comment,
    .methodReturn, .ifHeader, .whileHeader, .closingBracket]

def ofFirst? : TokenKind → Option LineKind
  | .intWord | .doubleWord | .stringWord | .charWord | .booleanWord => some .declaration
  | .finalWord => some .finalDeclaration
  | .variableName => some .assignment
  | .voidWord => some .methodHeader
  | .methodName => some .methodCall
  | .returnWord => some .methodReturn
  | .rightBrace => some .closingBracket
  | .ifOpen => some .ifHeader
  | .whileOpen => some .whileHeader
  | .comment => some .comment
  | _ => none

def assigns : LineKind → Bool
  | .finalDeclaration | .declaration | .assignment => true
  | _ => false

def opens : LineKind → Bool
  | .methodHeader | .ifHeader | .whileHeader => true
  | _ => false

def label : LineKind → String
  | .finalDeclaration => "final_var_declaration"
  | .declaration => "var_declaration"
  | .assignment => "var_assignment"
  | .methodHeader => "method_declaration"
  | .methodCall => "method_call"
  | .comment => "comment"
  | .methodReturn => "return"
  | .ifHeader => "if_statement"
  | .whileHeader => "while_statement"
  | .closingBracket => "closing_bracket"

end LineKind

/-- A line with its number, and the scope that it is read in. -/
structure Line where
  number : UInt32
  kind : LineKind
  scope : Scope := .global
  tokens : List Token
  deriving DecidableEq, Repr

namespace Line

def last? (line : Line) : Option TokenKind := line.tokens.getLast?.map Token.kind

def subject (line : Line) : String := (line.tokens.head?.map Token.name).getD ""

end Line

end SJava
