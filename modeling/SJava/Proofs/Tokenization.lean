import SJava.Proofs.Scanning
import Mathlib.Data.List.Basic

/-!
# Tokenization

What the kinds of token spell is said here without patterns (`TokenKind.Spells`), and the two agree
(`TokenKind.pattern_matches_iff`); how far a kind reaches is found in one scan. The first piece of a
text is then the longest word of the first kind that spells a beginning of it
(`Lexeme.isFront_front`), and no other piece is (`Lexeme.IsFront.unique`). So a text is cut into
such pieces in exactly one way, and its tokens are read off the pieces one by one.
-/

namespace SJava

/-! ## What the kinds spell -/

def IsRun (allowed : Char → Bool) (text : List Char) : Prop :=
  text ≠ [] ∧ ∀ c ∈ text, allowed c = true

namespace TokenKind

variable {kind : TokenKind} {text : List Char}

/-- A keyword, white space that can be left out, and an opening parenthesis. -/
def Opens (keyword : String) (text : List Char) : Prop :=
  ∃ spaces, (∀ c ∈ spaces, Token.isSpace c = true) ∧ text = keyword.toList ++ spaces ++ ['(']

/-- The words that a kind of token stands for. -/
def Spells : TokenKind → List Char → Prop
  | .doubleLiteral, text => ∃ sign whole part, (sign = ['-'] ∨ sign = []) ∧
      IsRun Char.isDigit whole ∧ IsRun Char.isDigit part ∧ text = sign ++ whole ++ ['.'] ++ part
  | .intLiteral, text => ∃ sign whole, (sign = ['-'] ∨ sign = []) ∧
      IsRun Char.isDigit whole ∧ text = sign ++ whole
  | .stringLiteral, text => ∃ inner, inner ≠ [] ∧ text = ['"'] ++ inner ++ ['"']
  | .charLiteral, text => ∃ c, text = ['\'', c, '\'']
  | .booleanLiteral, text => text = "true".toList ∨ text = "false".toList
  | .ifOpen, text => Opens "if" text
  | .whileOpen, text => Opens "while" text
  | .space, text => IsRun Token.isSpace text
  | .methodName, text => ∃ first rest spaces, Char.isAlpha first = true ∧
      (∀ c ∈ rest, Token.isWord c = true) ∧ (∀ c ∈ spaces, Token.isSpace c = true) ∧
      text = first :: rest ++ spaces ++ ['(']
  | .variableName, text =>
      (∃ first rest, Char.isAlpha first = true ∧
        (∀ c ∈ rest, (Token.isWord c || c == '-') = true) ∧ text = first :: rest) ∨
      ∃ rest, IsRun Token.isWord rest ∧ text = '_' :: rest
  | .other, text => ∃ c, text = [c]
  | kind, text => ∃ word, kind.word? = some word ∧ text = word.toList

theorem pattern_matches_iff : kind.pattern.Matches text ↔ kind.Spells text := by
  cases kind <;> simp [pattern, Spells, Opens, IsRun, word?, Pattern.matches_word,
    Pattern.matches_one, Pattern.matches_seq, Pattern.matches_either, and_assoc]

theorem Spells.ne_nil (spelled : kind.Spells text) : text ≠ [] := by
  intro empty
  rw [empty, ← pattern_matches_iff, ← Pattern.isNullable_iff, kind.pattern_isNullable] at spelled
  cases spelled

theorem longest_eq_some_iff {n : Nat} : kind.pattern.longest text = some n ↔
    ∃ word, word <+: text ∧ word.length = n ∧ kind.Spells word ∧
      ∀ other, other <+: text → kind.Spells other → other.length ≤ n := by
  simp only [Pattern.longest_eq_some_iff_prefix, pattern_matches_iff]

theorem longest_eq_none_iff : kind.pattern.longest text = none ↔
    ∀ word, word <+: text → ¬kind.Spells word := by
  simp only [Pattern.longest_eq_none_iff_prefix, pattern_matches_iff]

theorem priority_injective {earlier : TokenKind} (same : earlier.priority = kind.priority) :
    earlier = kind :=
  (List.idxOf_inj earlier.mem_byPriority).mp same

theorem mem_of_priority_lt {before after : List TokenKind} {earlier : TokenKind}
    (order : byPriority = before ++ kind :: after) (less : earlier.priority < kind.priority) :
    earlier ∈ before := by
  by_contra missing
  have upTo : kind.priority ≤ before.length := by
    rw [priority, order, List.idxOf_append]
    split
    · exact List.idxOf_le_length
    · simp
  have past : before.length ≤ earlier.priority := by
    rw [priority, order, List.idxOf_append_of_notMem missing]
    exact Nat.le_add_right _ _
  exact absurd (upTo.trans past) (Nat.not_le.mpr less)

end TokenKind

/-! ## Pieces -/

namespace Lexeme

variable {piece other : Lexeme} {text : List Char}

/-- The first piece of a text: the longest word of the first kind that spells a beginning of it. -/
structure IsFront (piece : Lexeme) (text : List Char) : Prop where
  nonempty : piece.text ≠ []
  inside : piece.text <+: text
  spelled : piece.kind.Spells piece.text
  longest : ∀ word, word <+: text → piece.kind.Spells word → word.length ≤ piece.text.length
  first : ∀ kind : TokenKind, kind.priority < piece.kind.priority →
    ∀ word, word <+: text → ¬kind.Spells word

theorem IsFront.unique (here : piece.IsFront text) (there : other.IsFront text) :
    piece = other := by
  have kinds : piece.kind = other.kind := by
    rcases Nat.lt_trichotomy piece.kind.priority other.kind.priority with earlier | same | later
    · exact absurd here.spelled (there.first _ earlier _ here.inside)
    · exact TokenKind.priority_injective same
    · exact absurd there.spelled (here.first _ later _ there.inside)
  have texts : piece.text = other.text := by
    refine (List.prefix_of_prefix_length_le here.inside there.inside ?_).eq_of_length_le ?_
    · exact there.longest _ here.inside (kinds ▸ here.spelled)
    · exact here.longest _ there.inside (kinds ▸ there.spelled)
  cases piece
  cases other
  cases kinds
  cases texts
  rfl

theorem isFront_front (c : Char) (cs : List Char) : (front (c :: cs)).IsFront (c :: cs) := by
  unfold front
  split
  · rename_i kind length found
    obtain ⟨before, here, after, order, found, missed⟩ := List.findSome?_eq_some_iff.mp found
    obtain ⟨n, longest, found⟩ := Option.map_eq_some_iff.mp found
    cases found
    obtain ⟨word, inside, rfl, spelled, most⟩ := TokenKind.longest_eq_some_iff.mp longest
    rw [← List.prefix_iff_eq_take.mp inside]
    refine ⟨spelled.ne_nil, inside, spelled, most, fun earlier less => ?_⟩
    have nothing := missed earlier (TokenKind.mem_of_priority_lt order less)
    exact TokenKind.longest_eq_none_iff.mp (Option.map_eq_none_iff.mp nothing)
  · rename_i nothing
    have none := List.findSome?_eq_none_iff.mp nothing .other (TokenKind.mem_byPriority _)
    rw [Option.map_eq_none_iff, TokenKind.longest_eq_none_iff] at none
    exact absurd ⟨c, rfl⟩ (none [c] ⟨cs, rfl⟩)

end Lexeme

/-! ## Tokenizations -/

/-- Pieces that make up a text, each of them the first piece of what is left of the text. -/
structure Tokenization (text : List Char) (pieces : List Lexeme) : Prop where
  whole : (pieces.map Lexeme.text).flatten = text
  fronts : ∀ before piece after, pieces = before ++ piece :: after →
    piece.IsFront (text.drop (before.map Lexeme.text).flatten.length)

section

variable {text : List Char} {piece : Lexeme} {pieces others : List Lexeme}

theorem tokenization_nil : Tokenization text [] ↔ text = [] := by
  constructor
  · intro cut
    exact cut.whole.symm
  · intro empty
    exact ⟨empty.symm, fun before piece after split => by simp at split⟩

theorem tokenization_cons : Tokenization text (piece :: pieces) ↔
    piece.IsFront text ∧ Tokenization (text.drop piece.text.length) pieces := by
  constructor
  · intro cut
    refine ⟨cut.fronts [] piece pieces rfl, ?_, fun before next after split => ?_⟩
    · rw [← cut.whole, List.map_cons, List.flatten_cons, List.drop_left]
    · have front := cut.fronts (piece :: before) next after (by rw [split, List.cons_append])
      rwa [List.map_cons, List.flatten_cons, List.length_append, ← List.drop_drop] at front
  · intro cut
    obtain ⟨front, rest⟩ := cut
    refine ⟨?_, fun before next after split => ?_⟩
    · rw [List.map_cons, List.flatten_cons, rest.whole]
      exact List.prefix_iff_eq_append.mp front.inside
    · rcases List.cons_eq_append_iff.mp split with ⟨rfl, shape⟩ | ⟨before, rfl, split⟩
      · cases shape
        exact front
      · rw [List.map_cons, List.flatten_cons, List.length_append, ← List.drop_drop]
        exact rest.fronts before next after (List.cons.inj split).2

theorem tokenization_lexemes (text : List Char) : Tokenization text (lexemes text) := by
  match text with
  | [] => exact tokenization_nil.mpr rfl
  | c :: cs =>
      rw [lexemes_cons, tokenization_cons]
      exact ⟨Lexeme.isFront_front c cs, tokenization_lexemes _⟩
termination_by text.length
decreasing_by
  have := Lexeme.front_length_pos c cs
  simp only [List.length_drop, List.length_cons]
  omega

theorem Tokenization.unique (here : Tokenization text pieces) (there : Tokenization text others) :
    pieces = others := by
  induction pieces generalizing text others with
  | nil =>
      rw [tokenization_nil] at here
      cases others with
      | nil => rfl
      | cons piece others =>
          obtain ⟨front, -⟩ := tokenization_cons.mp there
          exact absurd (List.prefix_nil.mp (here ▸ front.inside)) front.nonempty
  | cons piece pieces ih =>
      obtain ⟨front, rest⟩ := tokenization_cons.mp here
      cases others with
      | nil =>
          rw [tokenization_nil] at there
          exact absurd (List.prefix_nil.mp (there ▸ front.inside)) front.nonempty
      | cons other others =>
          obtain ⟨frontToo, restToo⟩ := tokenization_cons.mp there
          cases front.unique frontToo
          rw [ih rest restToo]

end

/-! ## Names -/

/-- The token that a piece is read as. Only methods and variables have names. The name of a method
goes up to the first blank, and up to the parenthesis if there is none. -/
inductive Lexeme.Reads : Lexeme → Token → Prop
  | variableName {text} : Reads ⟨.variableName, text⟩ ⟨.variableName, some (.ofList text)⟩
  | beforeBlank {name rest} : ' ' ∉ name →
      Reads ⟨.methodName, name ++ ' ' :: rest⟩ ⟨.methodName, some (.ofList name)⟩
  | beforeParen {name rest} : ' ' ∉ name ++ '(' :: rest → '(' ∉ name →
      Reads ⟨.methodName, name ++ '(' :: rest⟩ ⟨.methodName, some (.ofList name)⟩
  | unnamed {kind text} : kind ≠ .space → kind ≠ .variableName → kind ≠ .methodName →
      Reads ⟨kind, text⟩ ⟨kind, none⟩

theorem takeWhile_ne_append {c : Char} {front back : List Char} (absent : c ∉ front) :
    (front ++ c :: back).takeWhile (· != c) = front := by
  rw [List.takeWhile_append_of_pos, List.takeWhile_cons_of_neg, List.append_nil]
  · simp
  · intro d member
    simpa using ne_of_mem_of_not_mem member absent

namespace Lexeme

variable {piece : Lexeme} {token : Token}

theorem reads_of_token? (spelled : piece.kind.Spells piece.text)
    (read : piece.token? = some token) : piece.Reads token := by
  obtain ⟨kind, text⟩ := piece
  unfold token? at read
  split at read
  case h_1 => cases read
  case h_2 =>
      rename_i isVariable
      cases isVariable
      cases read
      exact .variableName
  case h_3 =>
      rename_i isMethod
      cases isMethod
      cases read
      obtain ⟨first, rest, spaces, -, -, -, shape⟩ := spelled
      have paren : '(' ∈ text := by
        rw [show text = _ from shape]
        simp
      by_cases blank : ' ' ∈ text
      · obtain ⟨name, back, split, absent⟩ := List.eq_append_cons_of_mem blank
        cases split
        simp only [List.contains_iff_mem.mpr blank, if_true, takeWhile_ne_append absent]
        exact .beforeBlank absent
      · obtain ⟨name, back, split, absent⟩ := List.eq_append_cons_of_mem paren
        cases split
        simp only [List.contains_iff_mem, blank, if_false, takeWhile_ne_append absent]
        exact .beforeParen blank absent
  case h_4 =>
      rename_i notSpace notVariable notMethod
      cases read
      exact .unnamed notSpace notVariable notMethod

theorem Reads.ne_space (reads : piece.Reads token) : piece.kind ≠ .space := by
  cases reads with
  | variableName | beforeBlank | beforeParen => exact nofun
  | unnamed visible => exact visible

end Lexeme

theorem forall₂_reads {pieces : List Lexeme}
    (spelled : ∀ piece ∈ pieces, piece.kind.Spells piece.text) :
    List.Forall₂ Lexeme.Reads (pieces.filter (·.kind ≠ .space))
      (pieces.filterMap Lexeme.token?) := by
  induction pieces with
  | nil => exact .nil
  | cons piece pieces ih =>
      obtain ⟨here, rest⟩ := List.forall_mem_cons.mp spelled
      cases read : piece.token? with
      | none =>
          have space := Lexeme.token?_eq_none read
          rw [List.filter_cons_of_neg (by simp [space]), List.filterMap_cons_none read]
          exact ih rest
      | some token =>
          have reads := Lexeme.reads_of_token? here read
          rw [List.filter_cons_of_pos (by simp [reads.ne_space]), List.filterMap_cons_some read]
          exact .cons reads (ih rest)

theorem Tokenization.spelled {text : List Char} {pieces : List Lexeme}
    (cut : Tokenization text pieces) : ∀ piece ∈ pieces, piece.kind.Spells piece.text := by
  intro piece member
  obtain ⟨before, after, split⟩ := List.append_of_mem member
  exact (cut.fronts before piece after split).spelled

/-- A text is cut into the longest words of the first kinds that fit, in one way only, and its
tokens are read off the pieces other than white space. One scan forward finds the longest word of a
kind wherever the lexer stands. -/
theorem lexemes_tokenization (text : String) :
    Tokenization text.toList (lexemes text.toList) ∧
      (∀ pieces, Tokenization text.toList pieces → pieces = lexemes text.toList) ∧
      List.Forall₂ Lexeme.Reads ((lexemes text.toList).filter (·.kind ≠ .space)) (tokens text) ∧
      ∀ (kind : TokenKind) (rest : List Char), kind.scan rest = kind.pattern.longest rest := by
  have cut := tokenization_lexemes text.toList
  have read := forall₂_reads cut.spelled
  exact ⟨cut, fun pieces other => other.unique cut, read, TokenKind.scan_eq_longest⟩

end SJava
