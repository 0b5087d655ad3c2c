import SJava.Verdict

/-!
# Access to files

What the commands need to know about files. The same commands run over the files of the system and
over a tree of files in memory.
-/

namespace SJava

structure FileAccess (m : Type → Type) where
  /-- The lines of a file that can be opened, or the reason why it cannot. -/
  source : String → m (Except String Source)
  text : String → m (Except String String)
  isThere : String → m Bool
  isDirectory : String → m Bool
  /-- The names in a directory in some order, none if it cannot be listed. -/
  names : String → m (List String)

def notFound : String := "No such file or directory (os error 2)"

def notADirectory : String := "Not a directory (os error 20)"

def isADirectory : String := "Is a directory (os error 21)"

end SJava
