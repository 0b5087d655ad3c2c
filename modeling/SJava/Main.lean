import SJava.Command

/-!
# The program

Access to the files of the system, and the command line.
-/

namespace SJava

def systemText (reason : String) (number : UInt32) : String :=
  reason ++ " (os error " ++ number.toNat.repr ++ ")"

def errorText : IO.Error → String
  | .noFileOrDirectory _ number reason => systemText reason number
  | .inappropriateType _ number reason => systemText reason number
  | .permissionDenied _ number reason => systemText reason number
  | .invalidArgument _ number reason => systemText reason number
  | .resourceExhausted _ number reason => systemText reason number
  | .noSuchThing _ number reason => systemText reason number
  | .otherError number reason => systemText reason number
  | error => error.toString

/-- Opens a file and then reads it, which are two ways to fail. -/
def readFile (path : String) : IO (Except String (Except String ByteArray)) := do
  match ← (IO.FS.Handle.mk path .read).toBaseIO with
  | .error error => return .error (errorText error)
  | .ok handle =>
      match ← handle.readBinToEnd.toBaseIO with
      | .error error => return .ok (.error (errorText error))
      | .ok bytes => return .ok (.ok bytes)

def systemFiles : FileAccess IO where
  source path := do
    match ← readFile path with
    | .error reason => return .error reason
    | .ok (.error reason) => return .ok [.error reason]
    | .ok (.ok bytes) => return .ok (.ofBytes bytes)
  text path := do
    match ← readFile path with
    | .error reason => return .error reason
    | .ok (.error reason) => return .error reason
    | .ok (.ok bytes) =>
        match String.fromUTF8? bytes with
        | some text => return .ok text
        | none => return .error notUtf8
  isThere path := (IO.FS.DirEntry.mk path "").root.pathExists
  isDirectory path := (IO.FS.DirEntry.mk path "").root.isDir
  names path := do
    match ← (IO.FS.DirEntry.mk path "").root.readDir.toBaseIO with
    | .ok entries => return entries.toList.map IO.FS.DirEntry.fileName
    | .error _ => return []

end SJava

def main (arguments : List String) : IO UInt32 := do
  let outcome ← SJava.Command.runArguments SJava.systemFiles arguments
  IO.print outcome.out
  IO.eprint outcome.err
  return outcome.code
