import SJava.Blank
import SJava.Registry
import SJava.Rules

/-!
# The verifier

The verifier takes the lines of a program one at a time and checks their meaning at the end. Blank
lines are skipped and not numbered. A line that fails is not stored, and the next line gets its
number.
-/

namespace SJava

structure Verifier where
  registry : Registry := {}
  lines : Array Line := #[]

structure Program where
  lines : List Line
  symbols : Symbols
  deriving DecidableEq, Repr

namespace Verifier

def nextNumber (verifier : Verifier) : UInt32 := .ofNat verifier.lines.size + 1

def feed (verifier : Verifier) (text : String) : Verifier × Except Fault Unit :=
  if isBlank text then (verifier, .ok ())
  else
    match verifier.registry.enter verifier.nextNumber text with
    | (registry, .error cause) =>
        ({ verifier with registry }, .error ⟨verifier.nextNumber, cause⟩)
    | (registry, .ok line) =>
        match line.located line.checkForm with
        | .error fault => ({ verifier with registry }, .error fault)
        | .ok () => (⟨registry, verifier.lines.push line⟩, .ok ())

def feedAll (verifier : Verifier) : List String → Except Fault Verifier
  | [] => .ok verifier
  | text :: rest =>
      match verifier.feed text with
      | (_, .error fault) => .error fault
      | (verifier, .ok ()) => verifier.feedAll rest

/-- Feeds all lines, also those after one that fails, with the outcome of each. -/
def feedEach (verifier : Verifier) : List String → Verifier × List (Except Fault Unit)
  | [] => (verifier, [])
  | text :: rest =>
      let (verifier, outcome) := verifier.feed text
      let (last, outcomes) := verifier.feedEach rest
      (last, outcome :: outcomes)

def finish (verifier : Verifier) : Except Fault Program :=
  match verifier.registry.symbols.check verifier.lines.toList with
  | (_, .error fault) => .error fault
  | (symbols, .ok ()) => .ok ⟨verifier.lines.toList, symbols⟩

end Verifier

def annotate (texts : List String) : Except Fault (List Line) := do
  let verifier ← Verifier.feedAll {} texts
  return verifier.lines.toList

def verify (texts : List String) : Except Fault Program := do
  let verifier ← Verifier.feedAll {} texts
  verifier.finish

end SJava
