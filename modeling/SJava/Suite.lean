import SJava.FileAccess
import SJava.Json.Parser
import SJava.Path
import SJava.Report
import SJava.Tap

/-!
# Conformance suites

A suite is a directory with programs to accept below `positive` and, in the directories below
`negative`, programs to reject. Beside each of the latter lies the diagnostic that is expected, of
which the reported one has to have every field.
-/

namespace SJava

namespace Suite

def acceptance (name : String) : Verdict → TestResult
  | .valid => ⟨name, none⟩
  | .invalid fault => ⟨name, some ("unexpected " ++ fault.diagnostic.phrase)⟩
  | .unreadable reason => ⟨name, some reason⟩

def difference (expected got : Json) : String :=
  "--- expected\n" ++ expected.pretty 0 ++ "\n+++ got\n" ++ got.pretty 0

def rejection (name : String) (expected : Json) : Verdict → TestResult
  | .valid => ⟨name, some "expected an error but the file verified"⟩
  | .unreadable reason => ⟨name, some reason⟩
  | .invalid fault =>
      let got := fault.diagnostic.json
      if expected.matchedBy got then ⟨name, none⟩ else ⟨name, some (difference expected got)⟩

def readExpected (path : String) : Except String String → Except String Json
  | .error reason => .error ("cannot read " ++ path ++ ": " ++ reason)
  | .ok text =>
      match Json.ofText? text with
      | some value => .ok value
      | none => .error ("invalid JSON in " ++ path)

def stem (name : String) : String := (Path.splitExtension name).1

def isProgram (name : String) : Bool := (Path.splitExtension name).2 == some "sjava"

def sorted (names : List String) : List String := names.mergeSort (· ≤ ·)

variable {m : Type → Type} [Monad m]

def verifyFile (files : FileAccess m) (path : String) : m Verdict := do
  let opened ← files.source path
  return Source.verifyOpened path opened

def programs (files : FileAccess m) (directory : String) : m (List String) := do
  let names ← files.names directory
  return sorted (names.filter isProgram)

def groups (files : FileAccess m) (directory : String) : m (List String) := do
  let names ← files.names directory
  let kept ← names.filterM fun name => files.isDirectory (Path.entry directory name)
  return sorted kept

def runPositive (files : FileAccess m) (directory : String) : m (List TestResult) := do
  let names ← programs files directory
  names.mapM fun name => do
    let verdict ← verifyFile files (Path.entry directory name)
    return acceptance ("positive/" ++ stem name) verdict

def runGroup (files : FileAccess m) (group directory : String) : m (List TestResult) := do
  let names ← programs files directory
  names.mapM fun name => do
    let title := "negative/" ++ stem group ++ "/" ++ stem name
    let path := Path.entry directory (stem name ++ ".expected-error.json")
    match readExpected path (← files.text path) with
    | .error reason => return ⟨title, some reason⟩
    | .ok expected =>
        let verdict ← verifyFile files (Path.entry directory name)
        return rejection title expected verdict

def runNegative (files : FileAccess m) (directory : String) : m (List TestResult) := do
  let names ← groups files directory
  let results ← names.mapM fun group => runGroup files group (Path.entry directory group)
  return results.flatten

/-- Runs the programs to accept, then the groups of programs to reject, each in order of name. -/
def run (files : FileAccess m) (directory : String) : m (List TestResult) := do
  let positive ← runPositive files (Path.entry directory "positive")
  let negative ← runNegative files (Path.entry directory "negative")
  return positive ++ negative

end Suite

end SJava
