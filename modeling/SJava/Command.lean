import SJava.Suite

/-!
# The command line

The commands `check`, `tokens` and `test`, with what they print and how they exit.
-/

namespace SJava

inductive Format
  | text
  | json
  deriving DecidableEq, Repr

structure Options where
  format : Format := .text
  quiet : Bool := false
  deriving DecidableEq, Repr

structure Outcome where
  out : String := ""
  err : String := ""
  code : UInt32 := 0
  deriving DecidableEq, Repr

namespace Options

/-- A wrong program is always reported in structured form, and as text unless it has to be quiet. -/
def reportFault (options : Options) (file : String) (fault : Fault) : String :=
  match options.format with
  | .json => (fault.diagnostic.jsonFor file).pretty 0 ++ "\n"
  | .text => if options.quiet then "" else fault.diagnostic.phrase ++ "\n"

def reportError (options : Options) (message : String) : String :=
  if options.quiet then ""
  else
    match options.format with
    | .json => (Json.object [("error", .string message)]).compact ++ "\n"
    | .text => message ++ "\n"

end Options

namespace Outcome

def ofCheck (options : Options) (file : String) (opened : Except String Source) : Outcome :=
  let verdict := Source.verifyOpened file opened
  { out := verdict.code.toNat.repr ++ "\n"
    err :=
      match verdict with
      | .valid => ""
      | .invalid fault => options.reportFault file fault
      | .unreadable reason => options.reportError ("error: " ++ reason)
    code := verdict.code }

def listing (format : Format) (lines : List Line) : String :=
  match format with
  | .json => (Json.array (lines.map Line.json)).pretty 0 ++ "\n"
  | .text => .join (lines.map fun line => line.row ++ "\n")

def ofTokens (options : Options) (file : String) (opened : Except String Source) : Outcome :=
  let unreadable (reason : String) : Outcome :=
    { err := options.reportError ("error: cannot read " ++ file ++ ": " ++ reason), code := 2 }
  match opened with
  | .error reason => unreadable reason
  | .ok source =>
      match Verifier.pull {} source with
      | .error (.unreadable reason) => unreadable reason
      | .error (.illegal fault) => { err := options.reportFault file fault, code := 1 }
      | .ok verifier => { out := listing options.format verifier.lines.toList }

def ofResults (results : List TestResult) : Outcome :=
  { out := tapReport results ++ "\n", code := if failureCount results > 0 then 1 else 0 }

def missingSuite (directory : String) : Outcome :=
  { err := "error: conformance suite directory not found: " ++ directory ++ "\n", code := 1 }

def usage : Outcome :=
  { err := "usage: sjava [--output text|json] [--quiet] (check FILE | tokens FILE | test [DIR])\n"
    code := 2 }

end Outcome

inductive Command
  | check (file : String)
  | tokens (file : String)
  | test (directory : String)
  deriving DecidableEq, Repr

namespace Command

def format? : String → Option Format
  | "text" => some .text
  | "json" => some .json
  | _ => none

/-- Takes options from anywhere among the arguments, the last of each winning, and leaves the
others. After `--` there are no options. -/
def options? : Options → List String → Option (Options × List String)
  | options, [] => some (options, [])
  | options, "--" :: rest => some (options, rest)
  | options, "--quiet" :: rest => options? { options with quiet := true } rest
  | options, "--output" :: value :: rest =>
      (format? value).bind fun format => options? { options with format } rest
  | options, "--output=text" :: rest => options? { options with format := .text } rest
  | options, "--output=json" :: rest => options? { options with format := .json } rest
  | options, argument :: rest =>
      if argument.startsWith "-" && argument != "-" then none
      else (options? options rest).map fun (options, others) => (options, argument :: others)

def ofArguments? : List String → Option Command
  | ["check", file] => some (.check file)
  | ["tokens", file] => some (.tokens file)
  | ["test"] => some (.test "conformance")
  | ["test", directory] => some (.test directory)
  | _ => none

variable {m : Type → Type} [Monad m]

def run (files : FileAccess m) (options : Options) : Command → m Outcome
  | .check file => do
      let opened ← files.source file
      return .ofCheck options file opened
  | .tokens file => do
      let opened ← files.source file
      return .ofTokens options file opened
  | .test directory => do
      if ← files.isThere directory then
        let results ← Suite.run files directory
        return .ofResults results
      else return .missingSuite directory

def runArguments (files : FileAccess m) (arguments : List String) : m Outcome :=
  match options? {} arguments with
  | none => pure .usage
  | some (options, rest) =>
      match ofArguments? rest with
      | none => pure .usage
      | some command => command.run files options

end Command

end SJava
