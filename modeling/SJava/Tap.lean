import SJava.Lines

/-!
# Test reports

The results of tests in version 14 of the Test Anything Protocol.
-/

namespace SJava

structure TestResult where
  name : String
  failure? : Option String := none
  deriving DecidableEq, Repr

namespace TestResult

def failed (result : TestResult) : Bool := result.failure?.isSome

def lines (result : TestResult) (number : Nat) : List String :=
  match result.failure? with
  | none => ["ok " ++ number.repr ++ " - " ++ result.name]
  | some reason =>
      ("not ok " ++ number.repr ++ " - " ++ result.name) ::
        (stringLines reason).map ("  # " ++ ·)

def linesFrom (number : Nat) : List TestResult → List String
  | [] => []
  | result :: results => result.lines number ++ linesFrom (number + 1) results

end TestResult

def failureCount (results : List TestResult) : Nat := results.countP TestResult.failed

def tapLines (results : List TestResult) : List String :=
  let failures := failureCount results
  ["TAP version 14", "1.." ++ results.length.repr] ++ TestResult.linesFrom 1 results ++
    ["# tests " ++ results.length.repr, "# pass  " ++ (results.length - failures).repr,
      "# fail  " ++ failures.repr]

def tapReport (results : List TestResult) : String := "\n".intercalate (tapLines results)

end SJava
