/-!
# Paths

Unix paths as lists of steps, and the form of a path in which no step leads upwards any more.
-/

namespace SJava

inductive Step
  | root
  | up
  | name (text : String)
  deriving DecidableEq, Repr

abbrev Path := List Step

namespace Path

/-- The step that a part of a path between slashes stands for. Empty parts and `.` lead nowhere. -/
def step? (part : String) : Option Step :=
  if part == "" || part == "." then none
  else if part == ".." then some .up
  else some (.name part)

/-- The parts of a path between its slashes. -/
def parts (text : String) : List String := (text.toList.splitOn '/').map String.ofList

def ofText (text : String) : Path :=
  let steps := (parts text).filterMap step?
  if text.startsWith "/" then .root :: steps else steps

/-- The path after one more step. A step upwards takes back the last one, whatever it is. -/
def walk (path : Path) : Step → Path
  | .up => path.dropLast
  | step => path ++ [step]

def normalize (path : Path) : Path := path.foldl walk []

def stepText : Step → String
  | .root => ""
  | .up => ".."
  | .name text => text

def text (path : Path) : String :=
  match path with
  | .root :: rest => "/" ++ "/".intercalate (rest.map stepText)
  | path => "/".intercalate (path.map stepText)

def entry (directory name : String) : String :=
  if directory == "" || directory.endsWith "/" then directory ++ name
  else directory ++ "/" ++ name

/-- A file name up to its last point, and what comes after it. A point at the start of a name does
not count. -/
def splitExtension (name : String) : String × Option String :=
  let reversed := name.toList.reverse
  let stem := ((reversed.dropWhile (· != '.')).drop 1).reverse
  if stem.isEmpty || name == ".." then (name, none)
  else (.ofList stem, some (.ofList (reversed.takeWhile (· != '.')).reverse))

end Path

end SJava
