import SJava.Proofs.Spacing
import Mathlib.Data.List.DropRight

/-!
# Scanning forward

The lexer finds the longest match of a pattern by following all ways to match it at once. For the
kinds of token no choice is left: what a pattern begins with is fixed by the text, be it a character
or the whole run of characters of one class, as what comes next in the pattern begins with no such
character (`Pattern.longest_run_seq`). So one scan over the text tells how far a kind reaches
(`TokenKind.scan_eq_longest`). String literals alone are scanned from the back, for their last
quote.
-/

namespace SJava

/-- The number of characters of one class that a text begins with. -/
def runLength (allowed : Char → Bool) (text : List Char) : Nat := (text.takeWhile allowed).length

namespace Pattern

variable {p q : Pattern} {allowed : Char → Bool} {c : Char} {text rest : List Char}

@[simp]
theorem matches_char : Matches (char c) cs ↔ cs = [c] := by
  simp [char, matches_one]

@[simp]
theorem matches_optional : Matches (optional p) cs ↔ Matches p cs ∨ cs = [] := by
  rw [optional, matches_either, matches_empty]

@[simp]
theorem matches_many_one : Matches (.many (.one allowed)) cs ↔ ∀ c ∈ cs, allowed c = true :=
  ⟨allowed_of_matches_many, matches_many_of_all⟩

@[simp]
theorem matches_oneOrMore_one : Matches (oneOrMore (.one allowed)) cs ↔
    cs ≠ [] ∧ ∀ c ∈ cs, allowed c = true := by
  constructor
  · intro found
    refine ⟨fun empty => ?_, allowed_of_matches_oneOrMore found⟩
    obtain ⟨xs, ys, first, -, split⟩ := matches_seq.mp found
    obtain ⟨d, -, rfl⟩ := matches_one.mp first
    simp [empty] at split
  · intro run
    obtain ⟨some, all⟩ := run
    cases cs with
    | nil => exact absurd rfl some
    | cons c cs =>
        rw [List.forall_mem_cons] at all
        exact .seq (.one all.1) (matches_many_of_all all.2)

theorem longest_eq_none_iff_prefix :
    p.longest text = none ↔ ∀ word, word <+: text → ¬Matches p word := by
  rw [longest_eq_none_iff]
  constructor
  · intro none word begins found
    apply none word.length
    rwa [← List.prefix_iff_eq_take.mp begins]
  · exact fun none k => none _ (List.take_prefix k text)

theorem longest_eq_some_iff_prefix {n : Nat} : p.longest text = some n ↔
    ∃ word, word <+: text ∧ word.length = n ∧ Matches p word ∧
      ∀ other, other <+: text → Matches p other → other.length ≤ n := by
  rw [longest_eq_some_iff]
  constructor
  · intro holds
    obtain ⟨inside, found, most⟩ := holds
    refine ⟨text.take n, List.take_prefix n text, List.length_take_of_le inside, found, ?_⟩
    intro other begins matched
    refine most other.length begins.length_le ?_
    rwa [← List.prefix_iff_eq_take.mp begins]
  · intro holds
    obtain ⟨word, begins, rfl, found, most⟩ := holds
    refine ⟨begins.length_le, ?_, fun k inside matched => ?_⟩
    · rwa [← List.prefix_iff_eq_take.mp begins]
    · have short := most _ (List.take_prefix k text) matched
      rwa [List.length_take_of_le inside] at short

/-- If all matches share what they begin with, the search can go on behind it. -/
theorem longest_of_front (front : List Char) (split : front ++ rest = text)
    (same : ∀ word, word <+: text →
      (Matches p word ↔ ∃ back, Matches q back ∧ word = front ++ back)) :
    p.longest text = (q.longest rest).map (front.length + ·) := by
  subst split
  cases found : q.longest rest with
  | none =>
      refine longest_eq_none_iff_prefix.mpr fun word begins matched => ?_
      obtain ⟨back, inner, rfl⟩ := (same word begins).mp matched
      have behind := (List.prefix_append_right_inj front).mp begins
      exact longest_eq_none_iff_prefix.mp found back behind inner
  | some n =>
      obtain ⟨back, behind, rfl, inner, most⟩ := longest_eq_some_iff_prefix.mp found
      have begins := (List.prefix_append_right_inj front).mpr behind
      refine longest_eq_some_iff_prefix.mpr ⟨front ++ back, begins, List.length_append,
        (same _ begins).mpr ⟨back, inner, rfl⟩, fun other starts matched => ?_⟩
      obtain ⟨shorter, within, rfl⟩ := (same other starts).mp matched
      have short := most shorter ((List.prefix_append_right_inj front).mp starts) within
      rw [List.length_append]
      exact Nat.add_le_add_left short _

theorem longest_congr (same : ∀ word, word <+: text → (Matches p word ↔ Matches q word)) :
    p.longest text = q.longest text := by
  have found := longest_of_front (p := p) (q := q) [] (List.nil_append text) fun word begins => by
    simp [same word begins]
  simpa using found

theorem longest_empty : empty.longest text = some 0 := by
  cases text with
  | nil => rfl
  | cons c cs => simp [longest_cons, after, longest_nothing, isNullable]

theorem longest_one :
    (one allowed).longest text = if text.head?.any allowed then some 1 else none := by
  cases text with
  | nil => rfl
  | cons c cs =>
      cases passes : allowed c with
      | true => simp [longest_cons, after, passes, longest_empty]
      | false => simp [longest_cons, after, passes, longest_nothing, isNullable]

theorem any_beq_iff {head : Option Char} : head.any (· == c) = true ↔ head = some c := by
  cases head with
  | none => simp
  | some d => simp

theorem longest_char : (char c).longest text = if text.head? = some c then some 1 else none := by
  rw [char, longest_one]
  simp only [any_beq_iff]

theorem longest_one_seq : (seq (one allowed) q).longest text =
    if text.head?.any allowed then (q.longest text.tail).map (1 + ·) else none := by
  cases text with
  | nil => rfl
  | cons c cs =>
      cases passes : allowed c with
      | true =>
          simp only [List.head?_cons, Option.any_some, passes, if_true, List.tail_cons]
          refine longest_of_front [c] rfl fun word begins => ?_
          rw [matches_seq]
          constructor
          · intro found
            obtain ⟨xs, ys, first, second, rfl⟩ := found
            obtain ⟨d, -, rfl⟩ := matches_one.mp first
            obtain ⟨rfl, -⟩ := List.cons_prefix_cons.mp begins
            exact ⟨ys, second, rfl⟩
          · intro found
            obtain ⟨back, second, rfl⟩ := found
            exact ⟨[c], back, .one passes, second, rfl⟩
      | false =>
          rw [longest_of_not_canBegin rfl (by simp [canBegin, isNullable, passes])]
          simp [passes]

theorem longest_char_seq : (seq (char c) q).longest text =
    if text.head? = some c then (q.longest text.tail).map (1 + ·) else none := by
  rw [char, longest_one_seq]
  simp only [any_beq_iff]

/-- A run of characters is taken whole if what comes next begins with no such character. -/
theorem run_of_prefix {xs ys : List Char} (apart : ∀ c, allowed c = true → q.canBegin c = false)
    (nonempty : q.isNullable = false) (all : ∀ c ∈ xs, allowed c = true) (found : Matches q ys)
    (begins : xs ++ ys <+: text) : xs = text.takeWhile allowed := by
  obtain ⟨more, rfl⟩ := begins
  cases ys with
  | nil =>
      rw [isNullable_iff.mpr found] at nonempty
      cases nonempty
  | cons d ys =>
      have stops : ¬allowed d = true := by
        intro passes
        have clash := apart d passes
        rw [canBegin_of_matches found] at clash
        cases clash
      rw [List.append_assoc, List.takeWhile_append_of_pos all, List.cons_append,
        List.takeWhile_cons_of_neg stops, List.append_nil]

theorem longest_run_seq (apart : ∀ c, allowed c = true → q.canBegin c = false)
    (nonempty : q.isNullable = false) : (seq (many (one allowed)) q).longest text =
      (q.longest (text.drop (runLength allowed text))).map (runLength allowed text + ·) := by
  refine longest_of_front (text.takeWhile allowed) ?_ fun word begins => ?_
  · exact List.prefix_iff_eq_append.mp (List.takeWhile_prefix allowed)
  rw [matches_seq]
  constructor
  · intro found
    obtain ⟨xs, ys, first, second, rfl⟩ := found
    have run := run_of_prefix apart nonempty (allowed_of_matches_many first) second begins
    exact ⟨ys, second, by rw [run]⟩
  · intro found
    obtain ⟨back, second, rfl⟩ := found
    exact ⟨_, back, matches_many_of_all fun _ => List.mem_takeWhile_imp, second, rfl⟩

theorem longest_many : (many (one allowed)).longest text = some (runLength allowed text) := by
  refine longest_eq_some_iff_prefix.mpr ⟨_, List.takeWhile_prefix allowed, rfl,
    matches_many_of_all fun _ => List.mem_takeWhile_imp, fun other begins found => ?_⟩
  obtain ⟨more, rfl⟩ := begins
  rw [runLength, List.takeWhile_append_of_pos (allowed_of_matches_many found), List.length_append]
  exact Nat.le_add_right _ _

theorem matches_seq_assoc {r : Pattern} {word : List Char} :
    Matches (seq (seq p q) r) word ↔ Matches (seq p (seq q r)) word := by
  constructor
  · intro found
    obtain ⟨_, zs, front, third, rfl⟩ := matches_seq.mp found
    obtain ⟨xs, ys, first, second, rfl⟩ := matches_seq.mp front
    rw [List.append_assoc]
    exact .seq first (.seq second third)
  · intro found
    obtain ⟨xs, _, first, back, rfl⟩ := matches_seq.mp found
    obtain ⟨ys, zs, second, third, rfl⟩ := matches_seq.mp back
    rw [← List.append_assoc]
    exact .seq (.seq first second) third

theorem longest_seq_assoc {r : Pattern} :
    (seq (seq p q) r).longest text = (seq p (seq q r)).longest text :=
  longest_congr fun _ _ => matches_seq_assoc

theorem longest_oneOrMore_seq (apart : ∀ c, allowed c = true → q.canBegin c = false)
    (nonempty : q.isNullable = false) : (seq (oneOrMore (one allowed)) q).longest text =
      if runLength allowed text = 0 then none
      else (q.longest (text.drop (runLength allowed text))).map (runLength allowed text + ·) := by
  rw [oneOrMore, longest_seq_assoc, longest_one_seq]
  cases text with
  | nil => rfl
  | cons c cs =>
      cases passes : allowed c with
      | false => simp [runLength, passes]
      | true =>
          have length : runLength allowed (c :: cs) = 1 + runLength allowed cs := by
            rw [runLength, List.takeWhile_cons_of_pos passes, List.length_cons, Nat.add_comm]
            rfl
          rw [length, longest_run_seq apart nonempty]
          simp [passes, Nat.add_assoc, Function.comp_def, Nat.add_comm 1]

theorem longest_word_seq {word : List Char} : (seq (Pattern.word word) q).longest text =
    if word <+: text then (q.longest (text.drop word.length)).map (word.length + ·) else none := by
  induction word generalizing text with
  | nil =>
      have same : (seq empty q).longest text = q.longest text :=
        longest_congr fun word _ => by simp [matches_seq, matches_empty]
      show (seq empty q).longest text = _
      simp [same]
  | cons d word ih =>
      have unfolded : Pattern.word (d :: word) = seq (char d) (Pattern.word word) := rfl
      rw [unfolded, longest_seq_assoc, char, longest_one_seq, ih]
      cases text with
      | nil => simp
      | cons c cs =>
          by_cases here : c = d
          · by_cases more : word <+: cs
            · simp [here, more, Function.comp_def, Nat.add_comm, Nat.add_assoc]
            · simp [here, more]
          · simp [here, Ne.symm here]

theorem longest_word {word : List Char} : (Pattern.word word).longest text =
    if word <+: text then some word.length else none := by
  have same : (Pattern.word word).longest text = (seq (Pattern.word word) empty).longest text :=
    longest_congr fun word _ => by simp [matches_seq, matches_empty]
  rw [same, longest_word_seq, longest_empty]
  rfl

theorem head_of_prefix {word : List Char} (nonempty : p.isNullable = false)
    (found : Matches p word) (begins : word <+: text) :
    ∃ c, text.head? = some c ∧ p.canBegin c = true := by
  cases word with
  | nil =>
      rw [isNullable_iff.mpr found] at nonempty
      cases nonempty
  | cons c word =>
      obtain ⟨more, rfl⟩ := begins
      exact ⟨c, rfl, canBegin_of_matches found⟩

theorem longest_optional_seq (apart : q.canBegin c = false) (nonempty : q.isNullable = false) :
    (seq (optional (char c)) q).longest text =
      if text.head? = some c then (q.longest text.tail).map (1 + ·) else q.longest text := by
  split
  · rename_i signed
    have same : (seq (optional (char c)) q).longest text = (seq (char c) q).longest text := by
      refine longest_congr fun word begins => ⟨fun found => ?_, fun found => ?_⟩
      · obtain ⟨xs, ys, first, second, rfl⟩ := matches_seq.mp found
        rcases matches_either.mp first with sign | missing
        · exact .seq sign second
        · cases matches_empty.mp missing
          obtain ⟨d, head, can⟩ := head_of_prefix nonempty second begins
          cases signed.symm.trans head
          rw [apart] at can
          cases can
      · obtain ⟨xs, ys, first, second, rfl⟩ := matches_seq.mp found
        exact .seq (.left first) second
    rw [same, longest_char_seq, if_pos signed]
  · rename_i unsigned
    refine longest_congr fun word begins => ⟨fun found => ?_, .seq (.right .empty)⟩
    obtain ⟨xs, ys, first, second, rfl⟩ := matches_seq.mp found
    rcases matches_either.mp first with sign | missing
    · obtain ⟨d, head, can⟩ := head_of_prefix rfl sign ((List.prefix_append xs ys).trans begins)
      rw [char, canBegin, beq_iff_eq] at can
      exact absurd (can ▸ head) unsigned
    · rwa [matches_empty.mp missing]

theorem longest_oneOrMore_one : (oneOrMore (one allowed)).longest text =
    if runLength allowed text = 0 then none else some (runLength allowed text) := by
  rw [oneOrMore, longest_one_seq, longest_many]
  cases text with
  | nil => rfl
  | cons c cs =>
      cases passes : allowed c with
      | false => simp [runLength, passes]
      | true => simp [runLength, passes, Nat.add_comm]

theorem longest_either_left (other : ∀ word, word <+: text → ¬Matches q word) :
    (either p q).longest text = p.longest text := by
  refine longest_congr fun word begins => ?_
  rw [matches_either, or_iff_left (other word begins)]

theorem longest_either_right (other : ∀ word, word <+: text → ¬Matches p word) :
    (either p q).longest text = q.longest text := by
  refine longest_congr fun word begins => ?_
  rw [matches_either, or_iff_right (other word begins)]

end Pattern

/-! ## Kinds of token -/

namespace TokenKind

variable {kind : TokenKind} {text : List Char}

/-- The one word of the kinds that have no other. -/
def word? : TokenKind → Option String
  | .intWord => some "int "
  | .doubleWord => some "double "
  | .stringWord => some "String "
  | .charWord => some "char "
  | .booleanWord => some "boolean "
  | .voidWord => some "void "
  | .finalWord => some "final "
  | .returnWord => some "return;"
  | .comma => some ","
  | .leftBrace => some "\x7b"
  | .rightBrace => some "\x7d"
  | .leftParen => some "("
  | .rightParen => some ")"
  | .equals => some "="
  | .andAnd => some "&&"
  | .orOr => some "||"
  | .semicolon => some ";"
  | .comment => some "//"
  | _ => none

def scanWord (word : String) (text : List Char) : Option Nat :=
  if word.toList <+: text then some word.toList.length else none

/-- A sign that can be left out, and digits. -/
def scanDigits (text : List Char) : Option Nat :=
  let sign := if text.head? = some '-' then 1 else 0
  let digits := runLength Char.isDigit (text.drop sign)
  if digits = 0 then none else some (sign + digits)

/-- Some characters that are covered already, a point and digits. -/
def scanFraction (covered : Nat) (text : List Char) : Option Nat :=
  let digits := runLength Char.isDigit (text.drop (covered + 1))
  if text[covered]? = some '.' ∧ digits ≠ 0 then some (covered + 1 + digits) else none

/-- A quote, at least one character, and what follows up to the last quote. -/
def scanQuoted (text : List Char) : Option Nat :=
  let length := (text.rdropWhile (· != '"')).length
  if text.head? = some '"' ∧ 3 ≤ length then some length else none

/-- Some characters that are covered already, white space and an opening parenthesis. -/
def scanParen (covered : Nat) (text : List Char) : Option Nat :=
  let spaces := runLength Token.isSpace (text.drop covered)
  if text[covered + spaces]? = some '(' then some (covered + spaces + 1) else none

def scanName (text : List Char) : Option Nat :=
  if text.head?.any Char.isAlpha then
    some (1 + runLength (fun c => Token.isWord c || c == '-') text.tail)
  else if text.head? = some '_' then
    let rest := runLength Token.isWord text.tail
    if rest = 0 then none else some (1 + rest)
  else none

/-- How far the first word of a kind reaches, found in one scan. -/
def scan : TokenKind → List Char → Option Nat
  | .doubleLiteral, text => (scanDigits text).bind (scanFraction · text)
  | .intLiteral, text => scanDigits text
  | .stringLiteral, text => scanQuoted text
  | .charLiteral, text =>
      if text.head? = some '\'' ∧ text[2]? = some '\'' then some 3 else none
  | .booleanLiteral, text => (scanWord "true" text).or (scanWord "false" text)
  | .ifOpen, text => (scanWord "if" text).bind (scanParen · text)
  | .whileOpen, text => (scanWord "while" text).bind (scanParen · text)
  | .space, text =>
      let spaces := runLength Token.isSpace text
      if spaces = 0 then none else some spaces
  | .methodName, text =>
      if text.head?.any Char.isAlpha then scanParen (1 + runLength Token.isWord text.tail) text
      else none
  | .variableName, text => scanName text
  | .other, text => if text = [] then none else some 1
  | kind, text => kind.word?.bind (scanWord · text)

open Pattern

theorem longest_of_word {word : String} (fixed : kind.word? = some word) :
    kind.pattern.longest text = scanWord word text := by
  have same (cs : List Char) : Matches kind.pattern cs ↔ Matches (.word word.toList) cs := by
    cases kind <;> cases fixed <;> simp [pattern, matches_word, Pattern.char, matches_one]
  rw [longest_congr fun cs _ => same cs, longest_word]
  rfl

theorem longest_digits : (seq (optional (char '-')) (oneOrMore (one Char.isDigit))).longest text =
    scanDigits text := by
  rw [longest_optional_seq rfl rfl, longest_oneOrMore_one, longest_oneOrMore_one, scanDigits]
  by_cases signed : text.head? = some '-'
  · simp only [signed, if_true, List.drop_one]
    split <;> rfl
  · simp [signed]

theorem map_add_add {length : Option Nat} {m n : Nat} :
    (length.map (n + ·)).map (m + ·) = length.map (m + n + ·) := by
  rw [Option.map_map]
  congr 1
  funext k
  exact (Nat.add_assoc m n k).symm

theorem longest_fraction {covered : Nat} : ((seq (char '.') (oneOrMore (one Char.isDigit))).longest
    (text.drop covered)).map (covered + ·) = scanFraction covered text := by
  rw [longest_char_seq, longest_oneOrMore_one, List.head?_drop, List.tail_drop, scanFraction]
  by_cases point : text[covered]? = some '.'
  · by_cases digits : runLength Char.isDigit (text.drop (covered + 1)) = 0
    · simp [point, digits]
    · simp [point, digits, Nat.add_assoc]
  · simp [point]

theorem longest_decimal : doubleLiteral.pattern.longest text =
    (scanDigits text).bind (scanFraction · text) := by
  have apart : ∀ c, Char.isDigit c = true →
      (seq (char '.') (oneOrMore (one Char.isDigit))).canBegin c = false := by
    intro c digit
    have other : c ≠ '.' := by
      rintro rfl
      exact absurd digit (by decide)
    simp [canBegin, Pattern.char, isNullable, other]
  rw [pattern, longest_optional_seq rfl rfl, longest_oneOrMore_seq apart rfl,
    longest_oneOrMore_seq apart rfl, scanDigits]
  by_cases signed : text.head? = some '-'
  · simp only [signed, if_true, List.drop_one]
    by_cases none : runLength Char.isDigit text.tail = 0
    · simp [none]
    · simp only [none, if_false, Option.bind_some, map_add_add, ← longest_fraction]
      rw [← List.drop_one, List.drop_drop]
  · simp only [signed, if_false, List.drop_zero, Nat.zero_add]
    by_cases none : runLength Char.isDigit text = 0
    · simp [none]
    · simp only [none, if_false, Option.bind_some, ← longest_fraction]

theorem longest_paren {covered : Nat} : ((seq (many (one Token.isSpace)) (char '(')).longest
    (text.drop covered)).map (covered + ·) = scanParen covered text := by
  have apart : ∀ c, Token.isSpace c = true → (char '(').canBegin c = false :=
    fun c space => forall_isSpace (P := fun c => (char '(').canBegin c = false) (by decide) space
  rw [longest_run_seq apart rfl, longest_char, scanParen, List.drop_drop, List.head?_drop]
  split
  · rfl
  · rfl

theorem longest_opening {word : String} :
    (seq (.word word.toList) (seq (many (one Token.isSpace)) (char '('))).longest text =
      (scanWord word text).bind (scanParen · text) := by
  rw [longest_word_seq, scanWord]
  split
  · exact longest_paren
  · rfl

theorem longest_methodName : methodName.pattern.longest text =
    if text.head?.any Char.isAlpha then scanParen (1 + runLength Token.isWord text.tail) text
    else none := by
  have apart : ∀ c, Token.isWord c = true →
      (seq (many (one Token.isSpace)) (char '(')).canBegin c = false := by
    intro c word
    have visible : Token.isSpace c = false := by
      rw [← Bool.not_eq_true]
      intro space
      have clash : Token.isWord c = false :=
        forall_isSpace (P := fun c => Token.isWord c = false) (by decide) space
      rw [clash] at word
      cases word
    have other : c ≠ '(' := by
      rintro rfl
      exact absurd word (by decide)
    simp [canBegin, Pattern.char, isNullable, visible, other]
  rw [pattern, longest_one_seq, longest_run_seq apart rfl]
  split
  · rw [map_add_add, ← longest_paren, ← List.drop_one, List.drop_drop]
  · rfl

theorem longest_variableName : variableName.pattern.longest text = scanName text := by
  rw [pattern, scanName]
  by_cases alpha : text.head?.any Char.isAlpha = true
  · rw [if_pos alpha, longest_either_left, longest_one_seq, if_pos alpha, longest_many,
      Option.map_some]
    intro word begins found
    obtain ⟨c, head, can⟩ := head_of_prefix rfl found begins
    have mark : c = '_' := by simpa [canBegin, Pattern.char, isNullable] using can
    rw [head, mark] at alpha
    cases alpha
  · rw [if_neg alpha, longest_either_right, longest_char_seq, longest_oneOrMore_one]
    · dsimp only
      split
      · split <;> rfl
      · rfl
    · intro word begins found
      obtain ⟨c, head, can⟩ := head_of_prefix rfl found begins
      have letter : Char.isAlpha c = true := by simpa [canBegin, isNullable] using can
      exact alpha (by simp [head, letter])

theorem longest_boolean : booleanLiteral.pattern.longest text =
    (scanWord "true" text).or (scanWord "false" text) := by
  rw [pattern]
  by_cases yes : "true".toList <+: text
  · have no : ∀ word, word <+: text → ¬Matches (.word ['f', 'a', 'l', 's', 'e']) word := by
      intro word begins found
      rw [matches_word.mp found] at begins
      exact absurd (List.prefix_of_prefix_length_le yes begins (by decide)) (by decide)
    rw [longest_either_left no, longest_word, scanWord, if_pos yes]
    exact if_pos yes
  · have no : ∀ word, word <+: text → ¬Matches (.word ['t', 'r', 'u', 'e']) word := by
      intro word begins found
      rw [matches_word.mp found] at begins
      exact yes begins
    rw [longest_either_right no, longest_word, scanWord, if_neg yes]
    rfl

theorem longest_charLiteral : charLiteral.pattern.longest text =
    if text.head? = some '\'' ∧ text[2]? = some '\'' then some 3 else none := by
  rw [pattern, longest_char_seq, longest_one_seq, longest_char]
  rcases text with _ | ⟨a, _ | ⟨b, _ | ⟨c, rest⟩⟩⟩
  · rfl
  · simp
  · simp
  · by_cases opens : a = '\''
    · by_cases closes : c = '\''
      · simp [opens, closes]
      · simp [opens, closes]
    · simp [opens]

theorem matches_quoted {word : List Char} : Matches stringLiteral.pattern word ↔
    ∃ inner, inner ≠ [] ∧ word = '"' :: (inner ++ ['"']) := by
  simp [pattern, matches_seq]

/-- A word in quotes ends in a quote, so none reaches past the last quote of a text. -/
theorem length_le_of_quoted {word : List Char} (begins : word <+: text)
    (found : Matches stringLiteral.pattern word) :
    word.length ≤ (text.rdropWhile (· != '"')).length := by
  by_contra longer
  obtain ⟨inner, -, shape⟩ := matches_quoted.mp found
  have split : text.rdropWhile (· != '"') ++ text.rtakeWhile (· != '"') = text :=
    List.rdropWhile_append_rtakeWhile
  obtain ⟨past, joined⟩ := List.prefix_of_prefix_length_le
    (List.rdropWhile_prefix (· != '"') text) begins (Nat.le_of_not_le longer)
  have nonempty : past ≠ [] := by
    intro empty
    rw [empty, List.append_nil] at joined
    exact longer (Nat.le_of_eq (congrArg List.length joined.symm))
  have last : past.getLast? = some '"' := by
    have same := List.getLast?_append_of_ne_nil (text.rdropWhile (· != '"')) nonempty
    rw [joined, shape, ← List.cons_append, List.getLast?_concat] at same
    exact same.symm
  have within : text.rdropWhile (· != '"') ++ past <+:
      text.rdropWhile (· != '"') ++ text.rtakeWhile (· != '"') := by
    rw [split, joined]
    exact begins
  have beyond := (List.prefix_append_right_inj _).mp within
  have other := List.mem_rtakeWhile_imp (beyond.subset (List.mem_of_getLast? last))
  simp at other

theorem rdropWhile_quoted (head : text.head? = some '"')
    (long : 3 ≤ (text.rdropWhile (· != '"')).length) :
    Matches stringLiteral.pattern (text.rdropWhile (· != '"')) := by
  obtain ⟨more, joined⟩ := List.rdropWhile_prefix (· != '"') text
  have ends := List.rdropWhile_last_not (· != '"') text
  generalize text.rdropWhile (· != '"') = quoted at joined ends long ⊢
  cases quoted with
  | nil => cases long
  | cons first back =>
      rcases List.eq_nil_or_concat back with rfl | ⟨inner, last, rfl⟩
      · simp at long
      · have opens : first = '"' := by simpa [← joined] using head
        have closes : last = '"' := by simpa using ends (List.cons_ne_nil _ _)
        rw [matches_quoted]
        refine ⟨inner, ?_, by simp [opens, closes]⟩
        rintro rfl
        simp at long

theorem longest_quoted : stringLiteral.pattern.longest text = scanQuoted text := by
  rw [scanQuoted]
  split
  · rename_i holds
    obtain ⟨head, long⟩ := holds
    exact longest_eq_some_iff_prefix.mpr ⟨_, List.rdropWhile_prefix _ text, rfl,
      rdropWhile_quoted head long, fun other => length_le_of_quoted⟩
  · rename_i fails
    refine longest_eq_none_iff_prefix.mpr fun word begins found => fails ?_
    have inside := length_le_of_quoted begins found
    obtain ⟨inner, some, rfl⟩ := matches_quoted.mp found
    obtain ⟨more, rfl⟩ := begins
    have pos := List.length_pos_of_ne_nil some
    simp only [List.length_cons, List.length_append, List.length_nil] at inside
    exact ⟨rfl, by omega⟩

theorem scan_eq_longest (kind : TokenKind) (text : List Char) :
    kind.scan text = kind.pattern.longest text := by
  cases kind with
  | doubleLiteral => exact longest_decimal.symm
  | intLiteral => exact longest_digits.symm
  | stringLiteral => exact longest_quoted.symm
  | charLiteral => exact longest_charLiteral.symm
  | booleanLiteral => exact longest_boolean.symm
  | ifOpen | whileOpen => exact longest_opening.symm
  | space => exact longest_oneOrMore_one.symm
  | methodName => exact longest_methodName.symm
  | variableName => exact longest_variableName.symm
  | other =>
      rw [scan, pattern, longest_one]
      cases text <;> rfl
  | _ => exact (longest_of_word rfl).symm

end TokenKind

end SJava
