import SJava.Pattern
import SJava.Token

/-!
# Splitting a line into tokens

At each place the first kind in priority order whose pattern matches takes its longest match. The
pieces, white space included, put together again are the line (`flatten_lexemes`); its tokens are
the pieces other than white space.
-/

namespace SJava

namespace Token

def isSpace (c : Char) : Bool :=
  c == ' ' || c == '\t' || c == '\n' || c == '\x0b' || c == '\x0c' || c == '\r'

def isWord (c : Char) : Bool := c.isAlphanum || c == '_'

end Token

open Pattern in
/-- The texts of each kind. A type word, `void` and `final` take the blank after them along, a
string literal reaches to the last quote of the line, and a method name, like `if` and `while`,
reaches to the opening parenthesis. -/
def TokenKind.pattern : TokenKind → Pattern
  | .doubleLiteral =>
      .seq (optional (char '-'))
        (.seq (oneOrMore (.one Char.isDigit)) (.seq (char '.') (oneOrMore (.one Char.isDigit))))
  | .intLiteral => .seq (optional (char '-')) (oneOrMore (.one Char.isDigit))
  | .stringLiteral => .seq (char '"') (.seq (oneOrMore (.one fun _ => true)) (char '"'))
  | .charLiteral => .seq (char '\'') (.seq (.one fun _ => true) (char '\''))
  | .booleanLiteral => .either (word ['t', 'r', 'u', 'e']) (word ['f', 'a', 'l', 's', 'e'])
  | .intWord => word ['i', 'n', 't', ' ']
  | .doubleWord => word ['d', 'o', 'u', 'b', 'l', 'e', ' ']
  | .stringWord => word ['S', 't', 'r', 'i', 'n', 'g', ' ']
  | .charWord => word ['c', 'h', 'a', 'r', ' ']
  | .booleanWord => word ['b', 'o', 'o', 'l', 'e', 'a', 'n', ' ']
  | .voidWord => word ['v', 'o', 'i', 'd', ' ']
  | .finalWord => word ['f', 'i', 'n', 'a', 'l', ' ']
  | .ifOpen => .seq (word ['i', 'f']) (.seq (.many (.one Token.isSpace)) (char '('))
  | .whileOpen =>
      .seq (word ['w', 'h', 'i', 'l', 'e']) (.seq (.many (.one Token.isSpace)) (char '('))
  | .returnWord => word ['r', 'e', 't', 'u', 'r', 'n', ';']
  | .space => oneOrMore (.one Token.isSpace)
  | .comma => char ','
  | .leftBrace => char '\x7b'
  | .rightBrace => char '\x7d'
  | .leftParen => char '('
  | .rightParen => char ')'
  | .equals => char '='
  | .andAnd => word ['&', '&']
  | .orOr => word ['|', '|']
  | .semicolon => char ';'
  | .comment => word ['/', '/']
  | .methodName =>
      .seq (.one Char.isAlpha)
        (.seq (.many (.one Token.isWord)) (.seq (.many (.one Token.isSpace)) (char '(')))
  | .variableName =>
      .either (.seq (.one Char.isAlpha) (.many (.one fun c => Token.isWord c || c == '-')))
        (.seq (char '_') (oneOrMore (.one Token.isWord)))
  | .other => .one fun _ => true

structure Lexeme where
  kind : TokenKind
  text : List Char
  deriving DecidableEq, Repr

namespace Lexeme

def front (text : List Char) : Lexeme :=
  match TokenKind.byPriority.findSome? fun kind => (kind.pattern.longest text).map (kind, ·) with
  | some (kind, length) => ⟨kind, text.take length⟩
  | none => ⟨.other, text.take 1⟩

/-- The token a piece stands for. A method name ends at the first blank, or else at the opening
parenthesis. -/
def token? (lexeme : Lexeme) : Option Token :=
  match lexeme.kind with
  | .space => none
  | .variableName => some ⟨.variableName, some (.ofList lexeme.text)⟩
  | .methodName =>
      let stop := if lexeme.text.contains ' ' then ' ' else '('
      some ⟨.methodName, some (.ofList (lexeme.text.takeWhile (· != stop)))⟩
  | kind => some ⟨kind, none⟩

end Lexeme

/-- The pieces of a text after the characters that the piece before them still covers. -/
def lexemesAfter : Nat → List Char → List Lexeme
  | _, [] => []
  | covered + 1, _ :: cs => lexemesAfter covered cs
  | 0, c :: cs =>
      let lexeme := Lexeme.front (c :: cs)
      lexeme :: lexemesAfter (lexeme.text.length - 1) cs

def lexemes (text : List Char) : List Lexeme := lexemesAfter 0 text

theorem TokenKind.pattern_isNullable (kind : TokenKind) : kind.pattern.isNullable = false := by
  cases kind <;> rfl

theorem TokenKind.longest_pos {kind : TokenKind} {text : List Char} {n : Nat}
    (h : kind.pattern.longest text = some n) : 0 < n := by
  cases n with
  | zero =>
      have hm := (Pattern.longest_eq_some h).2.1
      rw [List.take_zero, ← Pattern.isNullable_iff, kind.pattern_isNullable] at hm
      cases hm
  | succ n => exact Nat.succ_pos n

namespace Lexeme

theorem front_text (text : List Char) : ∃ n, (front text).text = text.take (n + 1) := by
  unfold front
  split
  · rename_i kind length h
    obtain ⟨k, _, h⟩ := List.exists_of_findSome?_eq_some h
    obtain ⟨n, hn, h⟩ := Option.map_eq_some_iff.mp h
    cases h
    exact ⟨length - 1, by rw [Nat.sub_add_cancel (TokenKind.longest_pos hn)]⟩
  · exact ⟨0, rfl⟩

theorem front_append (text : List Char) :
    (front text).text ++ text.drop (front text).text.length = text := by
  obtain ⟨n, h⟩ := front_text text
  rw [h, List.length_take]
  rcases Nat.le_total (n + 1) text.length with hn | hn
  · rw [Nat.min_eq_left hn, List.take_append_drop]
  · rw [Nat.min_eq_right hn, List.take_of_length_le hn, List.drop_length, List.append_nil]

theorem front_length_pos (c : Char) (cs : List Char) : 0 < (front (c :: cs)).text.length := by
  obtain ⟨n, h⟩ := front_text (c :: cs)
  simp [h]

end Lexeme

theorem lexemesAfter_eq (covered : Nat) (text : List Char) :
    lexemesAfter covered text = lexemes (text.drop covered) := by
  induction text generalizing covered with
  | nil => simp [lexemesAfter, lexemes]
  | cons c cs ih =>
      cases covered with
      | zero => rfl
      | succ covered => simpa [lexemesAfter] using ih covered

theorem lexemes_nil : lexemes [] = [] := rfl

theorem lexemes_cons (c : Char) (cs : List Char) :
    lexemes (c :: cs) =
      .front (c :: cs) :: lexemes ((c :: cs).drop (Lexeme.front (c :: cs)).text.length) := by
  have hpos := Lexeme.front_length_pos c cs
  rw [lexemes, lexemesAfter, lexemesAfter_eq]
  generalize (Lexeme.front (c :: cs)).text.length = n at hpos
  cases n with
  | zero => cases hpos
  | succ n => rfl

theorem flatten_lexemes (text : List Char) : ((lexemes text).map Lexeme.text).flatten = text := by
  match text with
  | [] => rfl
  | c :: cs =>
      rw [lexemes_cons, List.map_cons, List.flatten_cons, flatten_lexemes, Lexeme.front_append]
termination_by text.length
decreasing_by
  have := Lexeme.front_length_pos c cs
  simp only [List.length_drop, List.length_cons]
  omega

/-- The tokens of a line, none of which is white space. -/
def tokens (text : String) : List Token := (lexemes text.toList).filterMap Lexeme.token?

end SJava
