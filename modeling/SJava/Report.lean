import SJava.Fault
import SJava.Json

/-!
# Reports

Diagnostics and lines as JSON values and as text.
-/

namespace SJava

namespace Json

def ofNumber (n : UInt32) : Json := .number (.integer n.toNat)

end Json

namespace Diagnostic

def fields (diagnostic : Diagnostic) : List (String × Json) :=
  [("kind", .string diagnostic.kind.label), ("line", .ofNumber diagnostic.line),
    ("message", .string diagnostic.message), ("phase", .string diagnostic.phase.label)]

def json (diagnostic : Diagnostic) : Json := .object diagnostic.fields

def jsonFor (diagnostic : Diagnostic) (file : String) : Json :=
  .object (("file", .string file) :: diagnostic.fields)

def phrase (diagnostic : Diagnostic) : String :=
  diagnostic.phase.label ++ " error: " ++ diagnostic.text

end Diagnostic

namespace Token

def json (token : Token) : Json :=
  .object (("kind", .string token.kind.label) ::
    match token.name? with
    | some name => [("name", .string name)]
    | none => [])

def text (token : Token) : String :=
  match token.name? with
  | some name => token.kind.label ++ "(" ++ name ++ ")"
  | none => token.kind.label

end Token

/-- A text at the right of a column, which grows if the text is too long. -/
def alignRight (width : Nat) (text : String) : String := .ofList (text.toList.leftpad width ' ')

/-- A text at the left of a column, which grows if the text is too long. -/
def alignLeft (width : Nat) (text : String) : String := .ofList (text.toList.rightpad width ' ')

namespace Line

def json (line : Line) : Json :=
  .object [("number", .ofNumber line.number), ("kind", .string line.kind.label),
    ("scope", .string line.scope.text), ("tokens", .array (line.tokens.map Token.json))]

def row (line : Line) : String :=
  alignRight 4 line.number.toNat.repr ++ "  " ++ alignLeft 22 line.kind.label ++
    alignLeft 24 line.scope.text ++ " ".intercalate (line.tokens.map Token.text)

end Line

end SJava
