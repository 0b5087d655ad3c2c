/-!
# Splitting at line feeds

A text is a list of lines, each ended by a line feed, of which the last may be missing. A carriage
return right before a line feed belongs to the line's end, and only that one. The characters can be
those of a string or the bytes of a file.
-/

namespace SJava

/-- The lines of a text whose line feed is `lf` and whose carriage return is `cr`. -/
def splitLines {α : Type} [BEq α] (lf cr : α) : List α → List (List α)
  | [] => []
  | [c] => if c == lf then [[]] else [[c]]
  | c :: d :: rest =>
      if c == lf then [] :: splitLines lf cr (d :: rest)
      else if c == cr && d == lf then splitLines lf cr (d :: rest)
      else
        match splitLines lf cr (d :: rest) with
        | [] => [[c]]
        | first :: more => (c :: first) :: more

def stringLines (text : String) : List String :=
  (splitLines '\n' '\r' text.toList).map String.ofList

/-- The lines of a file, each decoded by itself. A line that is not UTF-8 decodes to nothing. -/
def byteLines (bytes : ByteArray) : List (Option String) :=
  (splitLines 0x0a 0x0d bytes.data.toList).map fun line => String.fromUTF8? ⟨line.toArray⟩

end SJava
