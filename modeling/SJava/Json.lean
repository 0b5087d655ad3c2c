import SJava.Decimal

/-!
# JSON values

Values, their text on one line and over several, and the partial match that an expected diagnostic
makes.
-/

namespace SJava

inductive JsonNumber
  | integer (value : Int)
  | float (value : Float)

namespace JsonNumber

def toFloat : JsonNumber → Float
  | .integer value => .ofInt value
  | .float value => value

def text : JsonNumber → String
  | .integer value => value.repr
  | .float value => floatText value

def same : JsonNumber → JsonNumber → Bool
  | .integer x, .integer y => x == y
  | .float x, .float y => x == y
  | _, _ => false

end JsonNumber

inductive Json
  | null
  | bool (value : Bool)
  | number (value : JsonNumber)
  | string (value : String)
  | array (items : List Json)
  | object (fields : List (String × Json))

namespace Json

def hexDigit (n : Nat) : Char := (Nat.toDigits 16 n).headD '0'

def escape (c : Char) : List Char :=
  if c == '"' then ['\\', '"']
  else if c == '\\' then ['\\', '\\']
  else if c == '\x08' then ['\\', 'b']
  else if c == '\x0c' then ['\\', 'f']
  else if c == '\n' then ['\\', 'n']
  else if c == '\r' then ['\\', 'r']
  else if c == '\t' then ['\\', 't']
  else if c.toNat < 0x20 then
    ['\\', 'u', '0', '0', hexDigit (c.toNat / 16), hexDigit (c.toNat % 16)]
  else [c]

def quoted (text : String) : String := .ofList ('"' :: text.toList.flatMap escape ++ ['"'])

mutual

def compact : Json → String
  | .null => "null"
  | .bool value => if value then "true" else "false"
  | .number value => value.text
  | .string value => quoted value
  | .array items => "[" ++ ",".intercalate (compactItems items) ++ "]"
  | .object fields => "\x7b" ++ ",".intercalate (compactFields fields) ++ "\x7d"

def compactItems : List Json → List String
  | [] => []
  | item :: items => item.compact :: compactItems items

def compactFields : List (String × Json) → List String
  | [] => []
  | (key, value) :: fields => (quoted key ++ ":" ++ value.compact) :: compactFields fields

end

/-- Items on lines of their own between two brackets, one step further in than the brackets. -/
def block (indent : Nat) (left right : String) (items : List String) : String :=
  match items with
  | [] => left ++ right
  | items =>
      let margin := String.ofList (List.replicate indent ' ')
      left ++ "\n" ++ ",\n".intercalate (items.map fun item => margin ++ "  " ++ item) ++ "\n" ++
        margin ++ right

mutual

def pretty (indent : Nat) : Json → String
  | .array items => block indent "[" "]" (prettyItems (indent + 2) items)
  | .object fields => block indent "\x7b" "\x7d" (prettyFields (indent + 2) fields)
  | value => value.compact

def prettyItems (indent : Nat) : List Json → List String
  | [] => []
  | item :: items => item.pretty indent :: prettyItems indent items

def prettyFields (indent : Nat) : List (String × Json) → List String
  | [] => []
  | (key, value) :: fields =>
      (quoted key ++ ": " ++ value.pretty indent) :: prettyFields indent fields

end

mutual

def same : Json → Json → Bool
  | .null, .null => true
  | .bool x, .bool y => x == y
  | .number x, .number y => x.same y
  | .string x, .string y => x == y
  | .array xs, .array ys => sameItems xs ys
  | .object xs, .object ys => sameFields xs ys
  | _, _ => false

def sameItems : List Json → List Json → Bool
  | [], [] => true
  | x :: xs, y :: ys => x.same y && sameItems xs ys
  | _, _ => false

def sameFields : List (String × Json) → List (String × Json) → Bool
  | [], [] => true
  | (k, x) :: xs, (l, y) :: ys => k == l && x.same y && sameFields xs ys
  | _, _ => false

end

mutual

/-- Whether everything that is expected is there. An object may have more fields than expected, and
numbers are compared as floats. -/
def matchedBy : Json → Json → Bool
  | .object expected, .object got => fieldsMatchedBy expected got
  | .number expected, .number got => expected.toFloat == got.toFloat
  | expected, got => expected.same got

def fieldsMatchedBy : List (String × Json) → List (String × Json) → Bool
  | [], _ => true
  | (key, value) :: expected, got =>
      (match got.lookup key with
        | some found => value.matchedBy found
        | none => false) && fieldsMatchedBy expected got

end

end Json

end SJava
