/-!
# Value types

The types a variable, a parameter or a literal can have, and when a value of one type may be
stored in a slot of another.
-/

namespace SJava

inductive ValueType
  | int
  | double
  | float
  | string
  | char
  | boolean
  deriving DecidableEq, Repr

namespace ValueType

def all : List ValueType := [.int, .double, .float, .string, .char, .boolean]

def label : ValueType → String
  | .int => "int"
  | .double => "double"
  | .float => "float"
  | .string => "string"
  | .char => "char"
  | .boolean => "boolean"

def word : ValueType → String
  | .string => "String"
  | type => type.label

/-- An int widens to a double, and both count as conditions, hence as booleans. No slot takes a
float and no float fits a slot: the type is reserved, and nothing in a program produces it. -/
def accepts : ValueType → ValueType → Bool
  | .float, _ => false
  | _, .float => false
  | .double, .int => true
  | .boolean, .int => true
  | .boolean, .double => true
  | slot, value => slot == value

def isCondition : ValueType → Bool
  | .int | .double | .boolean => true
  | _ => false

end ValueType

end SJava
