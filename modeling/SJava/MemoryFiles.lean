import SJava.Path
import SJava.Verdict

/-!
# Files in memory

Texts that are kept under paths and found under every path that leads to the same place.
-/

namespace SJava

structure MemoryFiles where
  entries : List (Path × String) := []

namespace MemoryFiles

def insert (files : MemoryFiles) (path text : String) : MemoryFiles :=
  ⟨((Path.ofText path).normalize, text) :: files.entries⟩

def ofList (texts : List (String × String)) : MemoryFiles :=
  texts.foldl (fun files (path, text) => files.insert path text) {}

/-- The files of a map from paths to texts, in the order in which the map lists them. Of two that
come to lie at the same place, the later one stays. -/
def ofMap (listed : List (String × String)) : MemoryFiles :=
  ⟨(listed.map fun (path, text) => ((Path.ofText path).normalize, text)).reverse⟩

def source (files : MemoryFiles) (path : String) : Except String Source :=
  let place := (Path.ofText path).normalize
  match files.entries.lookup place with
  | some text => .ok (.ofBytes text.toUTF8)
  | none => .error ("file not found in memory: " ++ place.text)

def verify (files : MemoryFiles) (path : String) : Verdict :=
  Source.verifyOpened path (files.source path)

end MemoryFiles

end SJava
