import SJava.Lines
import SJava.Verifier

/-!
# Verdicts

A source is pulled line by line, and a line can fail to be read as well as be wrong. Whichever comes
first ends the run; the meaning of a program is checked only when all of it was read.
-/

namespace SJava

/-- The lines of a source in order, each with its text or the reason why it cannot be read. -/
abbrev Source := List (Except String String)

def notUtf8 : String := "stream did not contain valid UTF-8"

def Source.ofBytes (bytes : ByteArray) : Source :=
  (byteLines bytes).map fun
    | some text => .ok text
    | none => .error notUtf8

inductive Failure
  | illegal (fault : Fault)
  | unreadable (reason : String)
  deriving DecidableEq, Repr

namespace Verifier

def pull (verifier : Verifier) : Source → Except Failure Verifier
  | [] => .ok verifier
  | .error reason :: _ => .error (.unreadable reason)
  | .ok text :: rest =>
      match verifier.feed text with
      | (_, .error fault) => .error (.illegal fault)
      | (verifier, .ok ()) => verifier.pull rest

end Verifier

inductive Verdict
  | valid
  | invalid (fault : Fault)
  | unreadable (reason : String)
  deriving DecidableEq, Repr

namespace Verdict

def ofFailure : Failure → Verdict
  | .illegal fault => .invalid fault
  | .unreadable reason => .unreadable reason

def code : Verdict → UInt32
  | .valid => 0
  | .invalid _ => 1
  | .unreadable _ => 2

def isValid : Verdict → Bool
  | .valid => true
  | _ => false

def label : Verdict → String
  | .valid => "valid"
  | .invalid _ => "invalid"
  | .unreadable _ => "io_failure"

end Verdict

namespace Source

def verify (source : Source) : Verdict :=
  match Verifier.pull {} source with
  | .error failure => .ofFailure failure
  | .ok verifier =>
      match verifier.finish with
      | .error fault => .invalid fault
      | .ok _ => .valid

def verifyOpened (path : String) : Except String Source → Verdict
  | .ok source => source.verify
  | .error reason => .unreadable ("cannot read " ++ path ++ ": " ++ reason)

end Source

end SJava
