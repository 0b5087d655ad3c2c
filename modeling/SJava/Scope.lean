/-!
# Scopes

A scope is the path from the top level of a program to a block. An `if` or `while` block is named by
a number that no other block of its sort has, and a method body by its method, so that a path tells
blocks apart. A declaration made in one scope can be seen from the scopes that it encloses.
-/

namespace SJava

inductive Segment
  | global
  | ifBlock (number : UInt32)
  | whileBlock (number : UInt32)
  | method (name : String)
  deriving DecidableEq, Repr

def Segment.text : Segment → String
  | .global => "global"
  | .ifBlock number => "if" ++ number.toNat.repr
  | .whileBlock number => "while" ++ number.toNat.repr
  | .method name => name

/-- A block, by the segments that lead to it from the top level, innermost first. -/
structure Scope where
  path : List Segment
  deriving DecidableEq, Repr

namespace Scope

def global : Scope := ⟨[]⟩

instance : Inhabited Scope := ⟨global⟩

def isGlobal (scope : Scope) : Bool := scope.path.isEmpty

def depth (scope : Scope) : Nat := scope.path.length

def child (scope : Scope) (segment : Segment) : Scope := ⟨segment :: scope.path⟩

/-- The innermost segment and the scope around it. The top level has neither. -/
def pop? (scope : Scope) : Option (Segment × Scope) :=
  match scope.path with
  | [] => none
  | segment :: outer => some (segment, ⟨outer⟩)

/-- The segments from the top level inwards, the top level itself included. -/
def segments (scope : Scope) : List Segment := .global :: scope.path.reverse

def encloses (outer inner : Scope) : Bool := outer.path.isSuffixOf inner.path

def outwards : List Segment → List Scope
  | [] => [global]
  | segment :: outer => ⟨segment :: outer⟩ :: outwards outer

/-- The scopes that enclose a scope, itself first and the top level last. -/
def enclosing (scope : Scope) : List Scope := outwards scope.path

def text (scope : Scope) : String := ".".intercalate (scope.segments.map Segment.text)

@[simp] theorem pop?_global : global.pop? = none := rfl

@[simp] theorem pop?_child (scope : Scope) (segment : Segment) :
    (scope.child segment).pop? = some (segment, scope) := rfl

@[simp] theorem depth_child (scope : Scope) (segment : Segment) :
    (scope.child segment).depth = scope.depth + 1 := rfl

theorem eq_child_of_pop? {scope outer : Scope} {segment : Segment}
    (h : scope.pop? = some (segment, outer)) : scope = outer.child segment := by
  obtain ⟨path⟩ := scope
  cases path <;> cases h
  rfl

theorem isGlobal_iff {scope : Scope} : scope.isGlobal = true ↔ scope = global := by
  cases scope with
  | mk path => simp [isGlobal, global]

theorem mem_outwards {outer : Scope} {path : List Segment} :
    outer ∈ outwards path ↔ outer.path <:+ path := by
  obtain ⟨segments⟩ := outer
  induction path with
  | nil => simp [outwards, global]
  | cons segment path ih => simp [outwards, List.suffix_cons_iff, ih]

theorem mem_enclosing {outer scope : Scope} :
    outer ∈ scope.enclosing ↔ outer.encloses scope = true := by
  simp [enclosing, encloses, mem_outwards]

end Scope

end SJava
