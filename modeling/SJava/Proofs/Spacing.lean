import SJava.Proofs.Faults
import Mathlib.Data.List.TakeWhile

/-!
# Space around lines

White space before a line is one piece that stands for no token (`tokensIn_space_append`). White
space after a line changes none of the pieces before it: the text of a piece ends in a character
that is no white space, but for the words that take one blank along
(`Pattern.canEnd_of_matches`, `TokenKind.word_of_canEnd`), so no piece can reach out of the line
(`Lexeme.front_append_space`). Since a text is fed by its tokens, lines can be indented and padded
at will (`verify_padded`).
-/

namespace SJava

/-! ## Longest matches -/

namespace Pattern

variable {p : Pattern} {c : Char} {cs more : List Char} {n : Nat}

/-- Whether a text of a pattern can end with a character. -/
def canEnd (c : Char) : Pattern → Bool
  | .nothing | .empty => false
  | .one allowed => allowed c
  | .seq first second => second.canEnd c || second.isNullable && first.canEnd c
  | .either left right => left.canEnd c || right.canEnd c
  | .many body => body.canEnd c

theorem canEnd_of_matches (found : Matches p cs) (last : cs.getLast? = some c) :
    p.canEnd c = true := by
  induction found with
  | empty | stop => cases last
  | one allows =>
      cases last
      exact allows
  | @seq first second xs ys _ back ihFirst ihSecond =>
      rw [List.getLast?_append] at last
      cases end? : ys.getLast? with
      | none =>
          rw [end?, Option.none_or] at last
          rw [List.getLast?_eq_none_iff] at end?
          rw [end?] at back
          simp [canEnd, isNullable_iff.mpr back, ihFirst last]
      | some d =>
          rw [end?, Option.some_or] at last
          simp [canEnd, ihSecond (end?.trans last)]
  | left _ ih => simp [canEnd, ih last]
  | right _ ih => simp [canEnd, ih last]
  | @more body xs ys _ _ ihFirst ihMore =>
      rw [List.getLast?_append] at last
      cases end? : ys.getLast? with
      | none =>
          rw [end?, Option.none_or] at last
          exact ihFirst last
      | some d =>
          rw [end?, Option.some_or] at last
          exact ihMore (end?.trans last)

theorem matches_word {word : List Char} : Matches (.word word) cs ↔ cs = word := by
  induction word generalizing cs with
  | nil => exact matches_empty
  | cons c rest ih =>
      show Matches (.seq (char c) (.word rest)) cs ↔ _
      rw [matches_seq]
      constructor
      · rintro ⟨xs, ys, first, second, rfl⟩
        obtain ⟨d, allows, rfl⟩ := matches_one.mp first
        rw [ih.mp second, beq_iff_eq.mp allows, List.singleton_append]
      · rintro rfl
        exact ⟨[c], rest, matches_one.mpr ⟨c, beq_self_eq_true c, rfl⟩, ih.mpr rfl, rfl⟩

theorem longest_eq_none_iff : p.longest cs = none ↔ ∀ k, ¬Matches p (cs.take k) := by
  refine ⟨longest_eq_none, fun none => ?_⟩
  cases found : p.longest cs with
  | none => rfl
  | some n => exact absurd (longest_eq_some found).2.1 (none n)

theorem longest_eq_some_iff : p.longest cs = some n ↔
    n ≤ cs.length ∧ Matches p (cs.take n) ∧ ∀ k ≤ cs.length, Matches p (cs.take k) → k ≤ n := by
  refine ⟨longest_eq_some, fun ⟨inside, here, most⟩ => ?_⟩
  cases found : p.longest cs with
  | none => exact absurd here (longest_eq_none found n)
  | some k =>
      obtain ⟨insideToo, hereToo, mostToo⟩ := longest_eq_some found
      rw [Nat.le_antisymm (most k insideToo hereToo) (mostToo n inside here)]

theorem longest_of_not_canBegin (nullable : p.isNullable = false) (begins : p.canBegin c = false) :
    p.longest (c :: cs) = none := by
  refine longest_eq_none_iff.mpr fun k found => ?_
  cases k with
  | zero =>
      rw [List.take_zero, ← isNullable_iff, nullable] at found
      cases found
  | succ k =>
      rw [List.take_succ_cons] at found
      rw [canBegin_of_matches found] at begins
      cases begins

theorem matches_many_of_all {allowed : Char → Bool} (all : ∀ c ∈ cs, allowed c = true) :
    Matches (.many (.one allowed)) cs := by
  induction cs with
  | nil => exact .stop
  | cons c cs ih =>
      rw [List.forall_mem_cons] at all
      exact .more (.one all.1) (ih all.2)

theorem longest_oneOrMore {allowed : Char → Bool} (first : allowed c = true) :
    (oneOrMore (.one allowed)).longest (c :: cs) =
      some ((c :: cs).takeWhile allowed).length := by
  refine longest_eq_some_iff.mpr ⟨(List.takeWhile_prefix _).length_le, ?_, fun k inside found => ?_⟩
  · rw [← List.prefix_iff_eq_take.mp (List.takeWhile_prefix allowed),
      List.takeWhile_cons_of_pos first]
    exact .seq (.one first) (matches_many_of_all fun _ => List.mem_takeWhile_imp)
  · have all := allowed_of_matches_oneOrMore found
    rw [← List.take_append_drop k (c :: cs), List.takeWhile_append_of_pos all, List.length_append,
      List.length_take, Nat.min_eq_left inside]
    exact Nat.le_add_right _ _

/-- A text can be continued without a change to its longest match if no match reaches into what
comes after it. -/
theorem longest_append
    (inside : ∀ front, front <+: more → Matches p (cs ++ front) → front = []) :
    p.longest (cs ++ more) = p.longest cs := by
  have ends {k : Nat} (found : Matches p ((cs ++ more).take k)) :
      (cs ++ more).take k = cs.take k := by
    rw [List.take_append] at found ⊢
    rcases Nat.le_total k cs.length with short | long
    · rw [Nat.sub_eq_zero_of_le short, List.take_zero, List.append_nil]
    · rw [List.take_of_length_le long] at found ⊢
      rw [inside _ (List.take_prefix _ _) found, List.append_nil]
  cases found : p.longest cs with
  | none =>
      refine longest_eq_none_iff.mpr fun k other => ?_
      rw [ends other] at other
      exact longest_eq_none found k other
  | some n =>
      obtain ⟨short, here, most⟩ := longest_eq_some found
      refine longest_eq_some_iff.mpr ⟨?_, ?_, fun k inside other => ?_⟩
      · rw [List.length_append]
        exact Nat.le_add_right_of_le short
      · rwa [List.take_append_of_le_length short]
      · have same := ends other
        have length := congrArg List.length same
        rw [List.length_take, List.length_take, Nat.min_eq_left inside] at length
        rw [same] at other
        exact most k (by omega) other

end Pattern

/-! ## Pieces -/

/-- The words that are only read as such with a blank after them. -/
def wordsBeforeBlank : List String :=
  ["int", "double", "String", "char", "boolean", "void", "final"]

theorem forall_isSpace {P : Char → Prop}
    (each : P ' ' ∧ P '\t' ∧ P '\n' ∧ P '\x0b' ∧ P '\x0c' ∧ P '\r') {c : Char}
    (space : Token.isSpace c = true) : P c := by
  obtain ⟨blank, tab, feed, vertical, form, cr⟩ := each
  simp only [Token.isSpace, Bool.or_eq_true, beq_iff_eq, or_assoc] at space
  rcases space with rfl | rfl | rfl | rfl | rfl | rfl <;> assumption

namespace TokenKind

variable {kind : TokenKind} {word : String} {c : Char} {text back : List Char}

def wordBeforeBlank? : TokenKind → Option String
  | .intWord => some "int"
  | .doubleWord => some "double"
  | .stringWord => some "String"
  | .charWord => some "char"
  | .booleanWord => some "boolean"
  | .voidWord => some "void"
  | .finalWord => some "final"
  | _ => none

theorem pattern_of_wordBeforeBlank (found : kind.wordBeforeBlank? = some word) :
    word ∈ wordsBeforeBlank ∧ kind.pattern = .word (word.toList ++ [' ']) := by
  cases kind <;> cases found <;> exact ⟨by decide, rfl⟩

/-- Apart from white space itself and unknown characters, only the words with a blank end in white
space. -/
theorem word_of_canEnd (space : Token.isSpace c = true) (ends : kind.pattern.canEnd c = true) :
    kind = .space ∨ kind = .other ∨ c = ' ' ∧ ∃ word, kind.wordBeforeBlank? = some word := by
  have found : kind.pattern.canEnd c = true →
      kind = .space ∨ kind = .other ∨ c = ' ' ∧ kind.wordBeforeBlank?.isSome = true := by
    refine forall_isSpace (P := fun c => kind.pattern.canEnd c = true →
      kind = .space ∨ kind = .other ∨ c = ' ' ∧ kind.wordBeforeBlank?.isSome = true) ?_ space
    cases kind <;> decide
  rcases found ends with kind | kind | ⟨blank, word⟩
  · exact .inl kind
  · exact .inr (.inl kind)
  · exact .inr (.inr ⟨blank, Option.isSome_iff_exists.mp word⟩)

theorem not_isSpace_of_mem_wordsBeforeBlank (member : word ∈ wordsBeforeBlank) :
    ∀ c ∈ word.toList, Token.isSpace c = false := by
  have inked : ∀ word ∈ wordsBeforeBlank, word.toList.all (!Token.isSpace ·) = true := by decide
  simpa using inked word member

/-- A piece that has a visible character in a line does not reach into the white space after it. -/
theorem longest_append_space (visible : ∃ c ∈ text, Token.isSpace c = false)
    (space : ∀ c ∈ back, Token.isSpace c = true)
    (apart : back.head? = some ' ' → ∀ word ∈ wordsBeforeBlank, ¬word.toList <:+ text) :
    kind.pattern.longest (text ++ back) = kind.pattern.longest text := by
  refine Pattern.longest_append fun front before found => ?_
  rcases List.eq_nil_or_concat front with rfl | ⟨spaces, c, rfl⟩
  · rfl
  · rw [List.concat_eq_append] at before found
    have inBack : ∀ d ∈ spaces ++ [c], Token.isSpace d = true :=
      fun d member => space d (before.subset member)
    have last : (text ++ (spaces ++ [c])).getLast? = some c := by simp
    rcases word_of_canEnd (inBack c (by simp)) (Pattern.canEnd_of_matches found last) with
      kind | kind | ⟨blank, word, reads⟩
    · rw [kind] at found
      obtain ⟨d, inside, ink⟩ := visible
      have spaced := Pattern.allowed_of_matches_oneOrMore found d (by simp [inside])
      rw [spaced] at ink
      cases ink
    · rw [kind] at found
      obtain ⟨d, -, single⟩ := Pattern.matches_one.mp found
      obtain ⟨e, inside, -⟩ := visible
      have length := congrArg List.length single
      have pos := List.length_pos_of_mem inside
      simp at length
      omega
    · obtain ⟨listed, pattern⟩ := pattern_of_wordBeforeBlank reads
      rw [pattern, Pattern.matches_word, ← List.append_assoc] at found
      -- The word has no white space in it, so it ends where the line does.
      have whole := (List.append_inj' found rfl).1
      have none : spaces = [] := by
        refine List.eq_nil_iff_forall_not_mem.mpr fun d member => ?_
        have ink := not_isSpace_of_mem_wordsBeforeBlank listed d (by rw [← whole]; simp [member])
        rw [inBack d (by simp [member])] at ink
        cases ink
      rw [none, List.append_nil] at whole
      obtain ⟨rest, shape⟩ := before
      have first : back.head? = some ' ' := by rw [← shape, none, blank]; rfl
      exact absurd (whole ▸ List.suffix_refl _) (apart first word listed)

end TokenKind

namespace Lexeme

variable {kind : TokenKind} {before after : List TokenKind} {c : Char} {cs text back : List Char}
  {n : Nat}

theorem front_append_space (visible : ∃ c ∈ text, Token.isSpace c = false)
    (space : ∀ c ∈ back, Token.isSpace c = true)
    (apart : back.head? = some ' ' → ∀ word ∈ wordsBeforeBlank, ¬word.toList <:+ text) :
    front (text ++ back) = front text := by
  have same (kind : TokenKind) : kind.pattern.longest (text ++ back) = kind.pattern.longest text :=
    kind.longest_append_space visible space apart
  rw [front, front]
  simp only [same]
  split
  · rename_i kind length found
    obtain ⟨_, -, found⟩ := List.exists_of_findSome?_eq_some found
    obtain ⟨_, longest, found⟩ := Option.map_eq_some_iff.mp found
    cases found
    rw [List.take_append_of_le_length (Pattern.longest_eq_some longest).1]
  · obtain ⟨c, inside, -⟩ := visible
    rw [List.take_append_of_le_length (List.length_pos_of_mem inside)]

/-- The first kind that can begin as a text does is the kind of its first piece. -/
theorem front_eq (order : TokenKind.byPriority = before ++ kind :: after)
    (missed : ∀ earlier ∈ before, earlier.pattern.canBegin c = false)
    (found : kind.pattern.longest (c :: cs) = some n) :
    front (c :: cs) = ⟨kind, (c :: cs).take n⟩ := by
  have nothing : before.findSome? (fun earlier =>
      (earlier.pattern.longest (c :: cs)).map (earlier, ·)) = none := by
    refine List.findSome?_eq_none_iff.mpr fun earlier member => ?_
    rw [Pattern.longest_of_not_canBegin earlier.pattern_isNullable (missed earlier member)]
    rfl
  rw [front, order, List.findSome?_append, nothing, Option.none_or, List.findSome?_cons, found]
  rfl

theorem front_of_space (space : Token.isSpace c = true) :
    front (c :: cs) = ⟨.space, (c :: cs).takeWhile Token.isSpace⟩ := by
  have missed : ∀ earlier ∈ TokenKind.byPriority.take 15, earlier.pattern.canBegin c = false :=
    forall_isSpace (P := fun c => ∀ earlier ∈ TokenKind.byPriority.take 15,
      earlier.pattern.canBegin c = false) (by decide) space
  have order : TokenKind.byPriority =
      TokenKind.byPriority.take 15 ++ .space :: TokenKind.byPriority.drop 16 := rfl
  rw [front_eq order missed (Pattern.longest_oneOrMore space),
    ← List.prefix_iff_eq_take.mp (List.takeWhile_prefix Token.isSpace)]

end Lexeme

/-! ## Tokens -/

def tokensIn (text : List Char) : List Token := (lexemes text).filterMap Lexeme.token?

theorem tokens_eq_tokensIn (text : String) : tokens text = tokensIn text.toList := rfl

section

variable {c : Char} {text front back : List Char}

theorem tokensIn_cons : tokensIn (c :: text) =
    (Lexeme.front (c :: text)).token?.toList ++
      tokensIn ((c :: text).drop (Lexeme.front (c :: text)).text.length) := by
  rw [tokensIn, lexemes_cons, List.filterMap_cons]
  cases (Lexeme.front (c :: text)).token? <;> rfl

/-- White space in front of a text stands for no token. -/
theorem tokensIn_dropWhile : tokensIn (text.dropWhile Token.isSpace) = tokensIn text := by
  cases text with
  | nil => rfl
  | cons c rest =>
      cases space : Token.isSpace c with
      | false => rw [List.dropWhile_cons_of_neg (by simp [space])]
      | true =>
          have rest_eq :=
            calc (c :: rest).drop ((c :: rest).takeWhile Token.isSpace).length
                = ((c :: rest).takeWhile Token.isSpace ++ (c :: rest).dropWhile Token.isSpace).drop
                    ((c :: rest).takeWhile Token.isSpace).length := by
                  rw [List.takeWhile_append_dropWhile]
              _ = (c :: rest).dropWhile Token.isSpace := List.drop_left
          rw [tokensIn_cons, Lexeme.front_of_space space, rest_eq]
          rfl

theorem tokensIn_space_append (space : ∀ c ∈ front, Token.isSpace c = true) :
    tokensIn (front ++ text) = tokensIn text := by
  rw [← tokensIn_dropWhile, List.dropWhile_append_of_pos space, tokensIn_dropWhile]

theorem tokensIn_append_space {text : List Char} (space : ∀ c ∈ back, Token.isSpace c = true)
    (apart : back.head? = some ' ' → ∀ word ∈ wordsBeforeBlank, ¬word.toList <:+ text) :
    tokensIn (text ++ back) = tokensIn text := by
  by_cases visible : ∃ c ∈ text, Token.isSpace c = false
  · match text with
    | [] => simp at visible
    | c :: rest =>
        have same := Lexeme.front_append_space visible space apart
        have inside : (Lexeme.front (c :: rest)).text.length ≤ (c :: rest).length := by
          obtain ⟨n, shape⟩ := Lexeme.front_text (c :: rest)
          rw [shape]
          exact List.length_take_le' _ _
        rw [List.cons_append] at same ⊢
        rw [tokensIn_cons, tokensIn_cons, same, ← List.cons_append,
          List.drop_append_of_le_length inside]
        rw [tokensIn_append_space space fun blank word listed ends =>
          apart blank word listed (ends.trans (List.drop_suffix _ _))]
  · have all : ∀ c ∈ text ++ back, Token.isSpace c = true := by
      simp only [not_exists, not_and, Bool.not_eq_false] at visible
      intro c member
      exact (List.mem_append.mp member).elim (visible c) (space c)
    have nothing {spaces : List Char} (all : ∀ c ∈ spaces, Token.isSpace c = true) :
        tokensIn spaces = [] := by
      rw [← List.append_nil spaces, tokensIn_space_append all]
      rfl
    rw [nothing all, nothing fun c member => all c (List.mem_append_left back member)]
termination_by text.length
decreasing_by
  have := Lexeme.front_length_pos c rest
  simp only [List.length_drop, List.length_cons]
  omega

end

/-! ## Lines -/

/-- White space is put around a text, and what comes after it does not begin with the blank that
would complete a word. -/
def Padded (text padded : String) : Prop :=
  ∃ front back : List Char, padded.toList = front ++ text.toList ++ back ∧
    (∀ c ∈ front, Token.isSpace c = true) ∧ (∀ c ∈ back, Token.isSpace c = true) ∧
    (back.head? = some ' ' → ∀ word ∈ wordsBeforeBlank, ¬word.toList <:+ text.toList)

section

variable {text padded : String} {texts more : List String} {verifier : Verifier}

theorem Padded.of_all (front back : List Char)
    (h : padded.toList = front ++ text.toList ++ back ∧ front.all Token.isSpace = true ∧
      back.all Token.isSpace = true ∧
      (back.head? = some ' ' → ∀ word ∈ wordsBeforeBlank, ¬word.toList <:+ text.toList)) :
    Padded text padded :=
  ⟨front, back, h.1, List.all_eq_true.mp h.2.1, List.all_eq_true.mp h.2.2.1, h.2.2.2⟩

theorem Padded.tokens (h : Padded text padded) : tokens padded = tokens text := by
  obtain ⟨front, back, shape, before, after, apart⟩ := h
  rw [tokens_eq_tokensIn, tokens_eq_tokensIn, shape, List.append_assoc,
    tokensIn_space_append before, tokensIn_append_space after apart]

theorem Padded.isBlank (h : Padded text padded) : isBlank padded = isBlank text := by
  obtain ⟨front, back, shape, before, after, -⟩ := h
  have white {spaces : List Char} (space : ∀ c ∈ spaces, Token.isSpace c = true) :
      spaces.all isWhiteSpace = true :=
    List.all_eq_true.mpr fun c member => isWhiteSpace_of_isSpace (space c member)
  rw [SJava.isBlank, SJava.isBlank, shape, List.all_append, List.all_append, white before,
    white after, Bool.true_and, Bool.and_true]

/-- The verifier reads no more of a text than its tokens, and whether it is blank. -/
theorem Verifier.feed_congr {other : String} (blank : isBlank other = isBlank text)
    (same : tokens other = tokens text) : verifier.feed other = verifier.feed text := by
  rw [feed, feed, blank, Registry.enter, Registry.enter, same]

theorem Padded.feed (h : Padded text padded) : verifier.feed padded = verifier.feed text :=
  Verifier.feed_congr h.isBlank h.tokens

theorem Verifier.feedAll_padded (padded : List.Forall₂ Padded texts more) :
    verifier.feedAll more = verifier.feedAll texts := by
  induction padded generalizing verifier with
  | nil => rfl
  | cons first _ ih =>
      rw [feedAll, feedAll, first.feed]
      split
      · rfl
      · exact ih

end

/-- Lines can be indented and padded: whatever the verifier says of a program, it says of the
program with white space around its lines. -/
theorem verify_padded {texts padded : List String} (h : List.Forall₂ Padded texts padded) :
    verify padded = verify texts := by
  rw [verify, verify, Verifier.feedAll_padded h]

/-- A line that ends in a type word can be continued by a tab, though not by a blank. -/
theorem verify_padded_tab :
    List.Forall₂ Padded ["void f(int a) \x7b", "print", "return;", "\x7d"]
        ["\t void f(int a) \x7b \x0c", "\x0bprint\t ", "return;\r", " \x7d "] ∧
      verify ["\t void f(int a) \x7b \x0c", "\x0bprint\t ", "return;\r", " \x7d "] =
        verify ["void f(int a) \x7b", "print", "return;", "\x7d"] := by
  have padded : List.Forall₂ Padded ["void f(int a) \x7b", "print", "return;", "\x7d"]
      ["\t void f(int a) \x7b \x0c", "\x0bprint\t ", "return;\r", " \x7d "] :=
    .cons (.of_all ['\t', ' '] [' ', '\x0c'] (by decide)) <|
      .cons (.of_all ['\x0b'] ['\t', ' '] (by decide)) <|
        .cons (.of_all [] ['\r'] (by decide)) <| .cons (.of_all [' '] [' '] (by decide)) .nil
  exact ⟨padded, verify_padded padded⟩

end SJava
