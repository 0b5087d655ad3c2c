import SJava.Line
import SJava.Symbols

/-!
# What a line declares and assigns

The declarations of a line are read by position from its tokens, whether or not the line is well
formed: a malformed line declares what it has up to the place where it goes wrong.
-/

namespace SJava

/-- The names at the start of a declaration and after its commas. -/
def namesAfter (atName : Bool) : List Token → List String
  | [] => []
  | token :: rest =>
      let names := namesAfter (token.kind == .comma) rest
      if atName && token.kind == .variableName then token.name :: names else names

/-- The names that stand before an equals sign. -/
def writtenNames : List Token → List String
  | name :: next :: rest =>
      let names := writtenNames (next :: rest)
      if name.kind == .variableName && next.kind == .equals then name.name :: names else names
  | _ => []

structure Parameter where
  name : String
  type : ValueType
  isFinal : Bool
  deriving DecidableEq, Repr

/-- The parameters at the front of some tokens, each `type name` or, where `isFinal` does not say
that the word has been read, `final type name`. -/
def parametersAfter (isFinal : Bool) : List Token → List Parameter
  | ⟨.finalWord, _⟩ :: rest => if isFinal then [] else parametersAfter true rest
  | type :: name :: rest =>
      match type.kind.declaredType?, name.kind with
      | some declared, .variableName =>
          ⟨name.name, declared, isFinal⟩ ::
            match rest with
            | ⟨.comma, _⟩ :: more => parametersAfter false more
            | _ => []
      | _, _ => []
  | _ => []

namespace Line

def written (line : Line) : List String :=
  if line.kind.assigns then writtenNames line.tokens else []

def declared (line : Line) : List Variable :=
  let isFinal := line.kind == .finalDeclaration
  match if isFinal then line.tokens.tail else line.tokens with
  | [] => []
  | type :: rest =>
      match type.kind.declaredType? with
      | none => []
      | some type =>
          (namesAfter true rest).map fun name => { name, type, scope := line.scope, isFinal }

def header? (line : Line) : Option (String × List Parameter) :=
  match line.tokens.dropWhile (·.kind != .methodName) with
  | [] => none
  | method :: rest => some (method.name, parametersAfter false rest)

end Line

def Parameter.toVariable (parameter : Parameter) (line : UInt32) (body : Scope) : Variable :=
  { name := parameter.name
    type := parameter.type
    scope := body
    isFinal := parameter.isFinal
    initialization? := some ⟨line, body⟩ }

end SJava
