import SJava.Proofs.Renumbering
import SJava.Proofs.Spacing

/-!
# Blank lines and comments

Blank texts make no lines. A comment is a line like others: it takes a number, and it comes between
the two lines around it. It is of a kind that declares and assigns nothing and that no rule is
about, so the check of a program does not see it (`Symbols.check_comment`), unless it parts the
return of a method from the bracket that ends the method, or stands at the end. What is left of it
is a number: the lines after it are numbered one higher (`Verifier.take_inserted`), in the same
order (`Renumbering.past_keepsOrder`).
-/

namespace SJava

/-! ## Comments -/

/-- White space, two slashes and any text. -/
def IsComment (text : String) : Prop :=
  ∃ spaces rest : List Char, text.toList = spaces ++ '/' :: '/' :: rest ∧
    ∀ c ∈ spaces, Token.isSpace c = true

theorem Lexeme.front_slashes (rest : List Char) :
    front ('/' :: '/' :: rest) = ⟨.comment, ['/', '/']⟩ := by
  have order : TokenKind.byPriority =
      TokenKind.byPriority.take 25 ++ .comment :: TokenKind.byPriority.drop 26 := rfl
  have missed : ∀ earlier ∈ TokenKind.byPriority.take 25, earlier.pattern.canBegin '/' = false := by
    decide
  have found : TokenKind.comment.pattern.longest ('/' :: '/' :: rest) = some 2 := by
    refine Pattern.longest_eq_some_iff.mpr ⟨by simp, Pattern.matches_word.mpr rfl, ?_⟩
    intro k inside matched
    have length := congrArg List.length (Pattern.matches_word.mp matched)
    rw [List.length_take, Nat.min_eq_left inside] at length
    exact Nat.le_of_eq length
  exact front_eq order missed found

namespace IsComment

variable {text : String}

theorem tokens (comment : IsComment text) : ∃ rest, tokens text = ⟨.comment, none⟩ :: rest := by
  obtain ⟨spaces, rest, shape, space⟩ := comment
  rw [tokens_eq_tokensIn, shape, tokensIn_space_append space, tokensIn_cons, Lexeme.front_slashes]
  exact ⟨_, rfl⟩

theorem not_isBlank (comment : IsComment text) : isBlank text = false := by
  obtain ⟨spaces, rest, shape, -⟩ := comment
  have slash : isWhiteSpace '/' = false := by decide
  simp [isBlank, shape, slash]

end IsComment

/-! ## A comment in the check -/

section Check

variable {comment : Line} {front back : List Line} {symbols : Symbols} {previous : Option LineKind}

theorem VariableTable.assignLines_comment {vars : VariableTable} (kind : comment.kind = .comment) :
    vars.assignLines (front ++ comment :: back) = vars.assignLines (front ++ back) := by
  induction front generalizing vars with
  | nil =>
      have nothing : comment.written = [] := by simp [Line.written, kind, LineKind.assigns]
      rw [List.nil_append, List.nil_append, assignLines, nothing]
      rfl
  | cons line front ih =>
      rw [List.cons_append, List.cons_append, assignLines, assignLines]
      rcases vars.assignAll ⟨line.number, line.scope⟩ line.written with ⟨next, _ | _⟩
      · rfl
      · exact ih

/-- Only a bracket that ends a method looks at the line before it, for a return. -/
theorem Line.checkMeaning_previous {line : Line} {other : Option LineKind}
    (noReturn : other ≠ some .methodReturn)
    (apart : line.kind = .closingBracket → previous ≠ some .methodReturn) :
    line.checkMeaning other symbols = line.checkMeaning previous symbols := by
  rw [checkMeaning, checkMeaning]
  cases kind : line.kind with
  | closingBracket =>
      have first : (other != some .methodReturn) = true := bne_iff_ne.mpr noReturn
      have second : (previous != some .methodReturn) = true := bne_iff_ne.mpr (apart kind)
      simp only [checkClosing, first, second]
  | _ => rfl

namespace Symbols

theorem checkLines_comment (kind : comment.kind = .comment)
    (apart : ∀ line ∈ back.head?, line.kind = .closingBracket →
      kindBefore previous front ≠ some .methodReturn) :
    symbols.checkLines previous (front ++ comment :: back) =
      symbols.checkLines previous (front ++ back) := by
  induction front generalizing previous with
  | nil =>
      have passes : comment.checkMeaning previous symbols = .ok () := by
        rw [Line.checkMeaning, kind]
      rw [List.nil_append, List.nil_append, checkLines, passes, kind]
      -- From the line after the next on, the line before is the same again.
      cases back with
      | nil => rfl
      | cons line back =>
          have same : line.checkMeaning (some .comment) symbols =
              line.checkMeaning previous symbols :=
            Line.checkMeaning_previous (by simp) (apart line rfl)
          show symbols.checkLines (some .comment) (line :: back) = _
          rw [checkLines, checkLines, same]
  | cons line front ih =>
      rw [List.cons_append, List.cons_append, checkLines, checkLines]
      simp only [kindBefore_cons] at apart
      rw [ih apart]

theorem check_comment (kind : comment.kind = .comment) (inside : back ≠ [])
    (apart : ∀ line ∈ back.head?, line.kind = .closingBracket →
      kindBefore none front ≠ some .methodReturn) :
    symbols.check (front ++ comment :: back) = symbols.check (front ++ back) := by
  have ending : checkEnd (front ++ comment :: back) = checkEnd (front ++ back) := by
    obtain ⟨line, back, rfl⟩ := List.exists_cons_of_ne_nil inside
    rw [checkEnd, checkEnd, List.getLast?_append_of_ne_nil _ (List.cons_ne_nil comment _),
      List.getLast?_append_of_ne_nil _ (List.cons_ne_nil line _), List.getLast?_cons_cons]
  rw [check, check, VariableTable.assignLines_comment kind]
  simp only [checkLines_comment kind apart, ending]

end Symbols

end Check

/-! ## Numbers past a place -/

namespace Renumbering

/-- Leaves a number for one more line after the first lines. -/
def past (place : Nat) : Renumbering :=
  ⟨fun number => if number.toNat ≤ place then number else number + 1⟩

variable {place : Nat} {number : UInt32} {line : Line} {lines : List Line} {registry : Registry}

theorem past_of_le (before : number.toNat ≤ place) : (past place).number number = number :=
  if_pos before

theorem past_of_lt (after : place < number.toNat) : (past place).number number = number + 1 :=
  if_neg (Nat.not_le_of_lt after)

theorem past_toNat (few : number.toNat + 1 < 2 ^ 32) :
    ((past place).number number).toNat =
      if number.toNat ≤ place then number.toNat else number.toNat + 1 := by
  have one : (1 : UInt32).toNat = 1 := rfl
  split
  · rename_i before
    rw [past_of_le before]
  · rename_i after
    rw [past_of_lt (Nat.lt_of_not_le after), UInt32.toNat_add, one, Nat.mod_eq_of_lt few]

theorem past_keepsOrder (few : ∀ line ∈ lines, line.number.toNat + 1 < 2 ^ 32) :
    (past place).KeepsOrder lines := by
  intro first member second memberToo
  rw [UInt32.lt_iff_toNat_lt, UInt32.lt_iff_toNat_lt, past_toNat (few first member),
    past_toNat (few second memberToo)]
  split <;> split <;> omega

theorem past_lines (before : ∀ line ∈ lines, line.number.toNat ≤ place) :
    lines.map (past place).line = lines := by
  refine (List.map_congr_left fun line member => ?_).trans (List.map_id _)
  rw [Renumbering.line, past_of_le (before line member), id_eq]

theorem past_registry (placed : registry.symbols.vars.PlacedIn lines)
    (before : ∀ line ∈ lines, line.number.toNat ≤ place) :
    (past place).registry registry = registry := by
  have same : registry.symbols.vars.records.map (past place).record =
      registry.symbols.vars.records := by
    refine (List.map_congr_left fun v member => ?_).trans (List.map_id _)
    obtain ⟨name, type, scope, isFinal, initialization?⟩ := v
    cases initialization? with
    | none => rfl
    | some first =>
        obtain ⟨line, stored, number⟩ := placed _ member first rfl
        have fixed : (past place).number first.line = first.line :=
          past_of_le (number ▸ before line stored)
        rw [record, Option.map_some, Renumbering.place, fixed, id_eq]
  rw [Renumbering.registry, Renumbering.symbols, vars, VariableTable.map, same]

end Renumbering

/-! ## Taking in tokens -/

namespace Verifier

variable {verifier later : Verifier} {word : List Token} {lists : List (List Token)} {fault : Fault}

theorem take_size (taken : verifier.take word = .ok later) :
    later.lines.size = verifier.lines.size + 1 := by
  rw [take] at taken
  split at taken
  · cases taken
  · split at taken <;> cases taken
    exact Array.size_push _

theorem takeAll_append {more : List (List Token)} :
    verifier.takeAll (lists ++ more) = verifier.takeAll lists >>= (·.takeAll more) := by
  induction lists generalizing verifier with
  | nil => rfl
  | cons word lists ih =>
      rw [List.cons_append, takeAll, takeAll]
      cases verifier.take word with
      | error => rfl
      | ok => exact ih

theorem takeAll_size (taken : verifier.takeAll lists = .ok later) :
    later.lines.size = verifier.lines.size + lists.length := by
  induction lists generalizing verifier with
  | nil =>
      cases taken
      rfl
  | cons word lists ih =>
      rw [takeAll] at taken
      split at taken
      · cases taken
      · rename_i middle step
        rw [ih taken, take_size step, List.length_cons]
        omega

theorem take_error (failed : verifier.take word = .error fault) :
    fault.line = verifier.nextNumber := by
  rw [take] at failed
  split at failed
  · cases failed
    rfl
  · rename_i registry line entered
    rw [Registry.enterTokens] at entered
    split at entered
    · cases entered
    · rename_i raw made
      obtain ⟨-, -, -, -, shape⟩ := Line.ofTokens_ok made
      have number : line.number = verifier.nextNumber := by
        rw [(Registry.register_same entered).1, shape]
      cases form : line.checkForm with
      | ok =>
          rw [form] at failed
          cases failed
      | error =>
          rw [form] at failed
          cases failed
          exact number

/-- A line that fails does so at the number that it would have got. -/
theorem takeAll_error (failed : verifier.takeAll lists = .error fault) :
    ∃ i < lists.length, fault.line = .ofNat (verifier.lines.size + i) + 1 := by
  induction lists generalizing verifier with
  | nil => cases failed
  | cons word lists ih =>
      rw [takeAll] at failed
      split at failed
      · rename_i refused
        cases failed
        exact ⟨0, Nat.zero_lt_succ _, take_error refused⟩
      · rename_i middle taken
        obtain ⟨i, inside, line⟩ := ih failed
        refine ⟨i + 1, Nat.succ_lt_succ inside, ?_⟩
        rw [line, take_size taken, Nat.add_assoc, Nat.add_comm 1]

end Verifier

/-! ## A comment among the lines that are fed -/

namespace Verifier

open Renumbering

/-- What the verifier holds if a comment has come in after its first lines. -/
def inserted (verifier : Verifier) (place : Nat) (comment : Line) : Verifier :=
  { registry := (past place).registry verifier.registry
    lines := (verifier.lines.toList.take place ++
      comment :: (verifier.lines.toList.drop place).map (past place).line).toArray }

variable {verifier : Verifier} {place : Nat} {comment : Line} {word : List Token}
  {lists : List (List Token)}

theorem size_inserted : (verifier.inserted place comment).lines.size = verifier.lines.size + 1 := by
  simp only [inserted, List.size_toArray, List.length_append, List.length_cons, List.length_map,
    List.length_take, List.length_drop, Array.length_toList]
  omega

theorem nextNumber_inserted (inside : place ≤ verifier.lines.size)
    (few : verifier.lines.size + 1 < 2 ^ 32) :
    (verifier.inserted place comment).nextNumber = (past place).number verifier.nextNumber := by
  have number : verifier.nextNumber.toNat = verifier.lines.size + 1 := toNat_ofNat_succ few
  rw [past_of_lt (by omega), nextNumber, size_inserted, nextNumber, UInt32.ofNat_add]
  rfl

theorem take_inserted (inside : place ≤ verifier.lines.size)
    (few : verifier.lines.size + 1 < 2 ^ 32) :
    (verifier.inserted place comment).take word =
      (past place).verdict (·.inserted place comment) (verifier.take word) := by
  have entered : (verifier.inserted place comment).registry.enterTokens
      ((past place).number verifier.nextNumber) word =
      Prod.map (past place).registry (Except.map (past place).line)
        (verifier.registry.enterTokens verifier.nextNumber word) := enterTokens_renumbered
  rw [take, take, nextNumber_inserted inside few, entered]
  rcases verifier.registry.enterTokens verifier.nextNumber word with ⟨registry, _ | line⟩
  · rfl
  · have form : ((past place).line line).checkForm = line.checkForm := rfl
    have stored : (verifier.inserted place comment).lines.push ((past place).line line) =
        (inserted ⟨registry, verifier.lines.push line⟩ place comment).lines := by
      have front : place ≤ verifier.lines.toList.length := inside
      simp only [inserted, Array.toList_push, List.take_append_of_le_length front,
        List.drop_append_of_le_length front, List.map_append, List.push_toArray, List.map_singleton,
        List.append_assoc, List.cons_append]
    dsimp only [Prod.map, Except.map]
    rw [form, located_renumbered, stored]
    cases line.located line.checkForm <;> rfl

theorem takeAll_inserted (inside : place ≤ verifier.lines.size)
    (few : verifier.lines.size + lists.length < 2 ^ 32) :
    (verifier.inserted place comment).takeAll lists =
      (past place).verdict (·.inserted place comment) (verifier.takeAll lists) := by
  induction lists generalizing verifier with
  | nil => rfl
  | cons word lists ih =>
      rw [List.length_cons] at few
      rw [takeAll, takeAll, take_inserted inside (by omega)]
      cases taken : verifier.take word with
      | error => rfl
      | ok later =>
          have size := take_size taken
          exact ih (by omega) (by omega)

theorem number_le (recorded : Recorded verifier.registry verifier.lines.toList)
    (few : verifier.lines.size < 2 ^ 32) :
    ∀ line ∈ verifier.lines.toList, line.number.toNat ≤ verifier.lines.size := by
  intro line member
  obtain ⟨i, stored⟩ := List.mem_iff_getElem?.mp member
  have below : i < verifier.lines.size := (List.getElem?_eq_some_iff.mp stored).1
  rw [recorded.number_toNat few stored]
  exact below

theorem take_comment (recorded : Recorded verifier.registry verifier.lines.toList)
    (few : verifier.lines.size < 2 ^ 32) (rest : List Token) :
    ∃ comment : Line, comment.kind = .comment ∧ verifier.take (⟨.comment, none⟩ :: rest) =
      .ok (verifier.inserted verifier.lines.size comment) := by
  refine ⟨⟨verifier.nextNumber, .comment, verifier.registry.scope, ⟨.comment, none⟩ :: rest⟩, rfl,
    ?_⟩
  have all : verifier.lines.toList.length = verifier.lines.size := Array.length_toList
  rw [inserted, past_registry recorded.placedIn (number_le recorded few), ← all, List.take_length,
    List.drop_length, List.map_nil, ← Array.toList_push]
  rfl

theorem finish_inserted (recorded : Recorded verifier.registry verifier.lines.toList)
    (few : verifier.lines.size + 1 < 2 ^ 32) (kind : comment.kind = .comment)
    (inside : place < verifier.lines.size)
    (apart : ∀ line ∈ (verifier.lines.toList.drop place).head?, line.kind = .closingBracket →
      Symbols.kindBefore none (verifier.lines.toList.take place) ≠ some .methodReturn) :
    (verifier.inserted place comment).finish.map Program.symbols =
      (past place).verdict (fun program => (past place).symbols program.symbols)
        verifier.finish := by
  have numbers := number_le recorded (by omega)
  have front : (verifier.lines.toList.take place).map (past place).line =
      verifier.lines.toList.take place := by
    refine past_lines fun line member => ?_
    obtain ⟨i, stored⟩ := List.mem_iff_getElem?.mp member
    rw [List.getElem?_take] at stored
    split at stored
    · rename_i before
      rw [recorded.number_toNat (by simp; omega) stored]
      exact before
    · cases stored
  have whole : verifier.lines.toList.take place ++
      (verifier.lines.toList.drop place).map (past place).line =
        verifier.lines.toList.map (past place).line := by
    rw [← front, ← List.map_append, List.take_append_drop]
  have ordered : (past place).KeepsOrder verifier.lines.toList :=
    past_keepsOrder fun line member =>
      Nat.lt_of_le_of_lt (Nat.succ_le_succ (numbers line member)) few
  have nonempty : (verifier.lines.toList.drop place).map (past place).line ≠ [] := by
    simpa using inside
  have checked : (verifier.inserted place comment).registry.symbols.check
      (verifier.inserted place comment).lines.toList =
      Prod.map (past place).symbols ((past place).verdict id)
        (verifier.registry.symbols.check verifier.lines.toList) := by
    rw [← check_renumbered ordered recorded.placedIn, ← whole]
    refine Symbols.check_comment kind nonempty ?_
    rw [List.head?_map]
    intro line member
    obtain ⟨before, first, rfl⟩ := Option.map_eq_some_iff.mp member
    exact apart before first
  rw [finish, finish, checked]
  rcases verifier.registry.symbols.check verifier.lines.toList with ⟨symbols, _ | _⟩ <;> rfl

end Verifier

/-! ## Programs -/

/-- The last line before is a return, and the first line after is the bracket that it stands
before. -/
def ReturnThenEnd (before after : List String) : Prop :=
  ∃ returning closing, (visible before).getLast? = some returning ∧
    (tokens returning).map Token.kind = [.returnWord] ∧
    (visible after).head? = some closing ∧ (tokens closing).map Token.kind = [.rightBrace]

theorem Line.WellFormed.alone {line : Line} (formed : line.WellFormed)
    (open? : line.kind.terminator? = none) (notComment : line.kind ≠ .comment) :
    ∃ token, line.tokens = [token] ∧ line.kind.begins token.kind = true := by
  obtain ⟨first, rest, shape, start⟩ := formed.begun
  have form := formed.form
  rw [Line.checkForm, open?] at form
  simp only [if_neg notComment, Line.checkAlone, shape] at form
  cases rest with
  | nil => exact ⟨first, shape, start⟩
  | cons => cases form

section

variable {before after : List String} {comment : String}

theorem returnThenEnd_of_lines {lines : List Line} (formed : ∀ line ∈ lines, line.WellFormed)
    (read : lines.map Line.tokens = tokenLists (before ++ after)) {line : Line}
    (next : (lines.drop (visible before).length).head? = some line)
    (closing : line.kind = .closingBracket)
    (returning : Symbols.kindBefore none (lines.take (visible before).length) =
      some .methodReturn) : ReturnThenEnd before after := by
  have length : (tokenLists before).length = (visible before).length := List.length_map _
  rw [tokenLists_append] at read
  have front : (lines.take (visible before).length).map Line.tokens = tokenLists before := by
    rw [List.map_take, read, ← length, List.take_left]
  have back : (lines.drop (visible before).length).map Line.tokens = tokenLists after := by
    rw [List.map_drop, read, ← length, List.drop_left]
  rw [Symbols.kindBefore, Option.or_none, Option.map_eq_some_iff] at returning
  obtain ⟨previous, last, kind⟩ := returning
  have lastText := congrArg List.getLast? front
  have nextText := congrArg List.head? back
  rw [List.getLast?_map, last, tokenLists, List.getLast?_map] at lastText
  rw [List.head?_map, next, tokenLists, List.head?_map] at nextText
  obtain ⟨returningText, foundLast, readLast⟩ := Option.map_eq_some_iff.mp lastText.symm
  obtain ⟨closingText, foundNext, readNext⟩ := Option.map_eq_some_iff.mp nextText.symm
  have previousFormed := formed previous (List.mem_of_mem_take (List.mem_of_getLast? last))
  have lineFormed := formed line (List.mem_of_mem_drop (List.mem_of_head? next))
  obtain ⟨word, alone, begins⟩ := previousFormed.alone (by rw [kind]; rfl) (by rw [kind]; decide)
  obtain ⟨bracket, aloneToo, beginsToo⟩ :=
    lineFormed.alone (by rw [closing]; rfl) (by rw [closing]; decide)
  rw [kind] at begins
  rw [closing] at beginsToo
  refine ⟨returningText, closingText, foundLast, ?_, foundNext, ?_⟩
  · rw [readLast, alone, List.map_singleton, beq_iff_eq.mp begins]
  · rw [readNext, aloneToo, List.map_singleton, beq_iff_eq.mp beginsToo]

open Renumbering in
/-- A program with a comment in it comes out as the program without, with the lines after the
comment numbered one higher. -/
theorem verify_commented (isComment : IsComment comment)
    (few : (visible (before ++ comment :: after)).length < 2 ^ 32) (inside : visible after ≠ [])
    (apart : ¬ReturnThenEnd before after) :
    (verify (before ++ comment :: after)).map Program.symbols =
      (past (visible before).length).verdict
        (fun program => (past (visible before).length).symbols program.symbols)
        (verify (before ++ after)) := by
  obtain ⟨rest, word⟩ := isComment.tokens
  have place : (tokenLists before).length = (visible before).length := List.length_map _
  have others : (tokenLists after).length = (visible after).length := List.length_map _
  have more := List.length_pos_of_ne_nil inside
  have count : (visible before).length + (visible after).length + 1 < 2 ^ 32 := by
    simp only [visible, List.filter_append, List.filter_cons, isComment.not_isBlank, Bool.not_false,
      if_true, List.length_append, List.length_cons] at few ⊢
    omega
  rw [verify_eq_verifyTokens, verify_eq_verifyTokens, tokenLists_append, tokenLists_append,
    tokenLists_of_not_blank isComment.not_isBlank, word, verifyTokens, verifyTokens,
    Verifier.takeAll_append, Verifier.takeAll_append]
  cases fed : Verifier.takeAll {} (tokenLists before) with
  | error fault =>
      -- The comment is never reached, and numbers up to its place stay.
      obtain ⟨i, below, line⟩ := Verifier.takeAll_error fed
      have number : fault.line.toNat = i + 1 := by
        rw [line, Array.size_empty, Nat.zero_add, toNat_ofNat_succ (by omega)]
      have fixed : (past (visible before).length).number fault.line = fault.line :=
        past_of_le (by omega)
      show Except.error fault = Except.error (Renumbering.fault _ fault)
      rw [Renumbering.fault, fixed]
  | ok middle =>
      have size : middle.lines.size = (visible before).length := by
        rw [Verifier.takeAll_size fed, Array.size_empty, Nat.zero_add, place]
      rw [← Verifier.feedAll_eq_takeAll] at fed
      obtain ⟨line, kind, taken⟩ :=
        Verifier.take_comment (Verifier.recorded_of_feedAll fed) (by omega) rest
      have continued : middle.takeAll ((⟨.comment, none⟩ :: rest) :: tokenLists after) =
          (past (visible before).length).verdict (·.inserted (visible before).length line)
            (middle.takeAll (tokenLists after)) := by
        rw [Verifier.takeAll, taken, ← size]
        exact Verifier.takeAll_inserted (Nat.le_refl _) (by omega)
      show (middle.takeAll ((⟨.comment, none⟩ :: rest) :: tokenLists after) >>= _).map _ =
        Renumbering.verdict _ _ (middle.takeAll (tokenLists after) >>= _)
      rw [continued]
      cases fedMore : middle.takeAll (tokenLists after) with
      | error => rfl
      | ok last =>
          have all : Verifier.feedAll {} (before ++ after) = .ok last := by
            rw [Verifier.feedAll_append_ok_iff]
            exact ⟨middle, fed, by rw [Verifier.feedAll_eq_takeAll, fedMore]⟩
          obtain ⟨recorded, read⟩ := Verifier.feedAll_ok_iff.mp all
          have sizeLast := Verifier.takeAll_size fedMore
          refine Verifier.finish_inserted recorded (by omega) kind (by omega) ?_
          intro next head closing returning
          exact apart (returnThenEnd_of_lines recorded.wellFormed read head closing returning)

/-- A program that fails does so at the number of one of its lines. -/
theorem verify_error {texts : List String} {fault : Fault} (failed : verify texts = .error fault) :
    ∃ i < (visible texts).length, fault.line = .ofNat i + 1 := by
  have length : (tokenLists texts).length = (visible texts).length := List.length_map _
  rw [verify] at failed
  cases fed : Verifier.feedAll {} texts with
  | error refused =>
      rw [fed] at failed
      cases failed
      rw [Verifier.feedAll_eq_takeAll] at fed
      simpa [length] using Verifier.takeAll_error fed
  | ok verifier =>
      rw [fed] at failed
      obtain ⟨recorded, read⟩ := Verifier.feedAll_ok_iff.mp fed
      have stores := Verifier.feedAll_stores Verifier.stores_start fed
      obtain ⟨line, member, number, -⟩ := Verifier.finish_error stores failed
      obtain ⟨i, stored⟩ := List.mem_iff_getElem?.mp member
      refine ⟨i, ?_, number.trans (recorded.number stored)⟩
      rw [← length, ← read, List.length_map]
      exact (List.getElem?_eq_some_iff.mp stored).1

end

/-- Blank lines make no difference. A comment before the last line makes none either, unless it
parts a return from the bracket after it: the program is accepted or fails as before, for the same
cause and at the same text, which is one line further down if it stands after the comment. -/
theorem blanks_and_comments_inert :
    (∀ texts more : List String, visible texts = visible more → verify texts = verify more) ∧
    ∀ (before after : List String) (comment : String), IsComment comment →
      (visible (before ++ comment :: after)).length < 2 ^ 32 → visible after ≠ [] →
      ¬ReturnThenEnd before after →
        ((∃ program, verify (before ++ comment :: after) = .ok program) ↔
          ∃ program, verify (before ++ after) = .ok program) ∧
        ∀ fault, verify (before ++ after) = .error fault →
          ∃ same i j text, verify (before ++ comment :: after) = .error same ∧
            same.cause = fault.cause ∧
            (visible (before ++ after))[i]? = some text ∧ fault.line.toNat = i + 1 ∧
            (visible (before ++ comment :: after))[j]? = some text ∧ same.line.toNat = j + 1 ∧
            j = if i < (visible before).length then i else i + 1 := by
  constructor
  · intro texts more same
    have lists : tokenLists texts = tokenLists more := congrArg (List.map tokens) same
    rw [verify_eq_verifyTokens, verify_eq_verifyTokens, lists]
  · intro before after comment isComment few inside apart
    have outcome := verify_commented isComment few inside apart
    have shape : visible (before ++ comment :: after) =
        visible before ++ comment :: visible after := by
      simp [visible, isComment.not_isBlank]
    refine ⟨Renumbering.ok_iff_of_verdict outcome, fun fault failed => ?_⟩
    have joined : visible (before ++ after) = visible before ++ visible after :=
      List.filter_append _ _
    obtain ⟨i, below, line⟩ := verify_error failed
    have found := List.getElem?_eq_getElem below
    generalize (visible (before ++ after))[i] = text at found
    rw [joined, List.length_append] at below
    rw [shape, List.length_append, List.length_cons] at few
    have number : fault.line.toNat = i + 1 := by rw [line, toNat_ofNat_succ (by omega)]
    refine ⟨_, i, _, text, Renumbering.error_of_verdict outcome failed, rfl, found, number, ?_, ?_,
      rfl⟩
    · rw [joined] at found
      rw [shape]
      split
      · rename_i earlier
        rwa [List.getElem?_append_left earlier] at found ⊢
      · rename_i later
        have behind : (visible before).length ≤ i := Nat.le_of_not_lt later
        rw [List.getElem?_append_right (by omega), Nat.succ_sub behind, List.getElem?_cons_succ]
        rwa [List.getElem?_append_right behind] at found
    · have moved : ((Renumbering.past (visible before).length).number fault.line).toNat = _ :=
        Renumbering.past_toNat (by omega)
      rw [Renumbering.fault, moved, number]
      split <;> split <;> omega

/-- The comment looks like the assignment that is missing. -/
theorem blanks_and_comments_inert_unset :
    (visible ["int a;", " ", "int b = a;"] = visible ["int a;", "int b = a;"] ∧
      verify ["int a;", " ", "int b = a;"] = verify ["int a;", "int b = a;"]) ∧
    verify ["int a;", "int b = a;"] = .error ⟨2, .uninitialized "a"⟩ ∧
    ∃ fault, verify ["int a;", "\t// a = 1;", "int b = a;"] = .error fault ∧
      fault.cause = .uninitialized "a" ∧ fault.line.toNat = 3 := by
  have blank : visible ["int a;", " ", "int b = a;"] = visible ["int a;", "int b = a;"] := by
    decide +kernel
  have failed : verify ["int a;", "int b = a;"] = .error ⟨2, .uninitialized "a"⟩ := by
    decide +kernel
  have isComment : IsComment "\t// a = 1;" :=
    ⟨['\t'], [' ', 'a', ' ', '=', ' ', '1', ';'], rfl, List.all_eq_true.mp (by decide)⟩
  have few : (visible (["int a;"] ++ "\t// a = 1;" :: ["int b = a;"])).length < 2 ^ 32 := by
    decide +kernel
  have inside : visible ["int b = a;"] ≠ [] := by decide +kernel
  have apart : ¬ReturnThenEnd ["int a;"] ["int b = a;"] := by
    rintro ⟨returning, closing, last, word, -⟩
    have first : (visible ["int a;"]).getLast? = some "int a;" := by decide +kernel
    have kinds : (tokens "int a;").map Token.kind ≠ [.returnWord] := by decide +kernel
    cases first.symm.trans last
    exact kinds word
  have one : (visible ["int a;"]).length = 1 := by decide +kernel
  obtain ⟨same, i, j, text, found, cause, -, number, -, moved, place⟩ :=
    (blanks_and_comments_inert.2 ["int a;"] ["int b = a;"] "\t// a = 1;" isComment few inside
      apart).2 _ failed
  have second : i = 1 := (Nat.succ.inj number).symm
  rw [one, second, if_neg (Nat.lt_irrefl 1)] at place
  exact ⟨⟨blank, blanks_and_comments_inert.1 _ _ blank⟩, failed, same, found, cause,
    by rw [moved, place]⟩

/-- After a comment the bracket does not come right after the return. -/
example : (verify ["void f() \x7b", "return;", "\x7d"]).toBool = true ∧
    (verify ["void f() \x7b", "return;", "// end", "\x7d"]).toBool = false := by
  decide +kernel

end SJava
