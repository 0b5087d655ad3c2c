import SJava.Fault

/-!
# Symbols

The variables and methods of a program. A variable is known by its name and the scope that declares
it, and a name stands for the variable of that name in the innermost scope around its use. Methods
have one table for the whole program.
-/

namespace SJava

structure Initialization where
  line : UInt32
  scope : Scope
  deriving DecidableEq, Repr

structure Variable where
  name : String
  type : ValueType
  scope : Scope
  isFinal : Bool := false
  initialization? : Option Initialization := none
  deriving DecidableEq, Repr

namespace Variable

/-- Records a first value; later ones leave no trace. -/
def assigned (v : Variable) (place : Initialization) : Variable :=
  { v with initialization? := some (v.initialization?.getD place) }

/-- Whether the value of a variable can be read on a line. A global can be read at top level after
the line that gives it a value, and inside a block if that line is at top level or in the same
block. A local can be read in its own scope, after it gets a value there. -/
def isReadableAt (v : Variable) (line : UInt32) (scope : Scope) : Bool :=
  match v.initialization? with
  | none => false
  | some place =>
      if v.scope.isGlobal then
        if scope.isGlobal then decide (place.line < line)
        else place.scope.isGlobal || place.scope == scope
      else v.scope == scope && place.scope == scope && decide (place.line < line)

end Variable

structure VariableTable where
  records : List Variable := []
  deriving DecidableEq, Repr

namespace VariableTable

def size (table : VariableTable) : Nat := table.records.length

def isEmpty (table : VariableTable) : Bool := table.records.isEmpty

def find? (table : VariableTable) (name : String) (scope : Scope) : Option Variable :=
  table.records.find? fun v => v.name == name && v.scope == scope

/-- The variable that a name stands for in a scope. -/
def lookup? (table : VariableTable) (name : String) (scope : Scope) : Option Variable :=
  scope.enclosing.findSome? (table.find? name)

def resolve (table : VariableTable) (name : String) (scope : Scope) : Except Cause Variable :=
  match table.lookup? name scope with
  | some v => .ok v
  | none => .error (.unbound name scope)

def declare (table : VariableTable) (v : Variable) : Except Cause VariableTable :=
  match table.find? v.name v.scope with
  | some _ => .error (.redeclared v.name v.scope)
  | none => .ok ⟨table.records ++ [v]⟩

def declareAll (table : VariableTable) : List Variable → VariableTable × Except Cause Unit
  | [] => (table, .ok ())
  | v :: vs =>
      match table.declare v with
      | .error cause => (table, .error cause)
      | .ok table => table.declareAll vs

def assign (table : VariableTable) (name : String) (place : Initialization) :
    Except Cause VariableTable :=
  match table.resolve name place.scope with
  | .error cause => .error cause
  | .ok target =>
      .ok ⟨table.records.map fun v =>
        if v.name == target.name && v.scope == target.scope then v.assigned place else v⟩

def assignAll (table : VariableTable) (place : Initialization) :
    List String → VariableTable × Except Cause Unit
  | [] => (table, .ok ())
  | name :: names =>
      match table.assign name place with
      | .error cause => (table, .error cause)
      | .ok table => table.assignAll place names

end VariableTable

structure Method where
  name : String
  parameters : List ValueType
  deriving DecidableEq, Repr

structure MethodTable where
  records : List Method := []
  deriving DecidableEq, Repr

namespace MethodTable

def size (table : MethodTable) : Nat := table.records.length

def isEmpty (table : MethodTable) : Bool := table.records.isEmpty

def find? (table : MethodTable) (name : String) : Option Method :=
  table.records.find? fun m => m.name == name

def resolve (table : MethodTable) (name : String) : Except Cause Method :=
  match table.find? name with
  | some m => .ok m
  | none => .error (.unknownMethod name)

/-- No two methods share a name, whatever their parameters are. -/
def declare (table : MethodTable) (m : Method) : Except Cause MethodTable :=
  match table.find? m.name with
  | some _ => .error (.methodRedeclared m.name)
  | none => .ok ⟨table.records ++ [m]⟩

end MethodTable

structure Symbols where
  vars : VariableTable := {}
  methods : MethodTable := {}
  deriving DecidableEq, Repr

end SJava
