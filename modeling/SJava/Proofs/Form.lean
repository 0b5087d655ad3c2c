import SJava.Token.Lexer
import SJava.Proofs.Sentences

/-!
# Well formed lines

A line is well formed exactly if its kinds of token are a sentence of the grammar of its kind, and
a line that ends as it should but is not well formed is refused at the first token with which it
stops being the beginning of a sentence.

The check compares the last token and follows the others from role to role, without asking where it
arrives. Both halves of the acceptance therefore go through the last role: the tokens that the table
leads through end in a role that fits the last of them (`follow?_fits`), and the completions of a
role are empty only where that role fits the terminator (`nil_mem_completions`).
-/

namespace SJava

theorem bind_eq_ok {ε α β : Type} {first : Except ε α} {next : α → Except ε β} {result : β} :
    first >>= next = .ok result ↔ ∃ middle, first = .ok middle ∧ next middle = .ok result := by
  cases first with
  | error => exact ⟨nofun, fun ⟨_, failed, _⟩ => nomatch failed⟩
  | ok middle =>
      constructor
      · exact fun passed => ⟨middle, rfl, passed⟩
      · intro holds
        obtain ⟨_, ⟨⟩, passed⟩ := holds
        exact passed

theorem then_eq_ok {ε β : Type} {first : Except ε Unit} {next : Unit → Except ε β} {result : β} :
    first >>= next = .ok result ↔ first = .ok () ∧ next () = .ok result := by
  rw [bind_eq_ok]
  constructor
  · exact fun ⟨(), passed⟩ => passed
  · exact fun passed => ⟨(), passed⟩

theorem ok_of_toBool {ε α : Type} {outcome : Except ε α} (h : outcome.toBool = true) :
    ∃ result, outcome = .ok result := by
  cases outcome with
  | error => cases h
  | ok result => exact ⟨result, rfl⟩

theorem ok_of_any {ε α : Type} {outcome : Except ε α} {test : α → Bool}
    (h : outcome.toOption.any test = true) :
    ∃ result, outcome = .ok result ∧ test result = true := by
  cases outcome with
  | error => cases h
  | ok result => exact ⟨result, rfl, h⟩

namespace LineKind

variable {kind : LineKind} {role reached : Role} {first last : TokenKind} {kinds : List TokenKind}

/-- The role that the last of some tokens plays, if they can follow a token of a role. -/
def follow? (kind : LineKind) : Role → List TokenKind → Option Role
  | role, [] => some role
  | role, first :: rest => (kind.next? role first).bind fun played => kind.follow? played rest

theorem follow?_append (kinds more : List TokenKind) :
    kind.follow? role (kinds ++ more) =
      (kind.follow? role kinds).bind fun reached => kind.follow? reached more := by
  induction kinds generalizing role with
  | nil => rfl
  | cons first kinds ih => simp [follow?, Option.bind_assoc, ih]

theorem mem_completions_iff (h : kind ≠ .comment) :
    kinds ∈ kind.completions role ↔
      ∃ reached, kind.follow? role kinds = some reached ∧ [] ∈ kind.completions reached := by
  induction kinds generalizing role with
  | nil => simp [follow?]
  | cons first kinds ih =>
      simp only [cons_mem_completions h, ih, follow?, Option.bind_eq_some_iff]
      constructor
      · intro holds
        obtain ⟨played, step, reached, follows, done⟩ := holds
        exact ⟨reached, ⟨played, step, follows⟩, done⟩
      · intro holds
        obtain ⟨reached, ⟨played, step, follows⟩, done⟩ := holds
        exact ⟨played, step, reached, follows, done⟩

theorem follow?_fits (start : role.fits first = true)
    (follows : kind.follow? role kinds = some reached) :
    reached.fits ((first :: kinds).getLast (List.cons_ne_nil first kinds)) = true := by
  induction kinds generalizing role first with
  | nil =>
      cases follows
      exact start
  | cons second kinds ih =>
      obtain ⟨played, step, follows⟩ := Option.bind_eq_some_iff.mp follows
      rw [List.getLast_cons_cons]
      exact ih (next?_some step).1 follows

theorem follow?_completable (start : ∃ rest, rest ∈ kind.completions role)
    (follows : kind.follow? role kinds = some reached) :
    ∃ rest, rest ∈ kind.completions reached := by
  induction kinds generalizing role with
  | nil =>
      cases follows
      exact start
  | cons first kinds ih =>
      obtain ⟨played, step, follows⟩ := Option.bind_eq_some_iff.mp follows
      exact ih (next?_some step).2 follows

theorem opening_completable (kind : LineKind) : ∃ rest, rest ∈ kind.completions kind.opening := by
  -- A shortest line of each kind, which the table leads through to its end.
  have ends (kinds : List TokenKind) (reached : Role) (h : kind ≠ .comment)
      (follows : kind.follow? kind.opening kinds = some reached)
      (done : [] ∈ kind.completions reached) : ∃ rest, rest ∈ kind.completions kind.opening :=
    ⟨kinds, (mem_completions_iff h).mpr ⟨reached, follows, done⟩⟩
  cases kind with
  | declaration =>
      exact ends [.variableName, .semicolon] .semicolon (by decide) rfl Language.nil_mem_one
  | finalDeclaration =>
      exact ends [.intWord, .variableName, .equals, .intLiteral, .semicolon] .semicolon (by decide)
        rfl Language.nil_mem_one
  | assignment =>
      exact ends [.equals, .intLiteral, .semicolon] .semicolon (by decide) rfl Language.nil_mem_one
  | methodCall =>
      exact ends [.rightParen, .semicolon] .semicolon (by decide) rfl Language.nil_mem_one
  | methodHeader =>
      exact ends [.methodName, .rightParen, .leftBrace] .openBrace (by decide) rfl
        Language.nil_mem_one
  | ifHeader | whileHeader =>
      exact ends [.intLiteral, .rightParen, .leftBrace] .openBrace (by decide) rfl
        Language.nil_mem_one
  | methodReturn | closingBracket => exact ⟨[], Language.nil_mem_one⟩
  | comment => exact ⟨[], trivial⟩

/-- Whether some tokens can be the beginning of a line of a kind. -/
def Begun (kind : LineKind) (kinds : List TokenKind) : Prop :=
  ∃ rest, kinds ++ rest ∈ kind.sentences

theorem begun_cons (h : kind ≠ .comment) (start : kind.begins first = true) :
    kind.Begun (first :: kinds) ↔ ∃ reached, kind.follow? kind.opening kinds = some reached := by
  simp only [Begun, List.cons_append]
  constructor
  · intro holds
    obtain ⟨rest, member⟩ := holds
    have completes := (cons_mem_sentences.mp member).2
    obtain ⟨reached, follows, _⟩ := (mem_completions_iff h).mp completes
    rw [follow?_append, Option.bind_eq_some_iff] at follows
    obtain ⟨middle, follows, _⟩ := follows
    exact ⟨middle, follows⟩
  · intro holds
    obtain ⟨reached, follows⟩ := holds
    obtain ⟨rest, completes⟩ := follow?_completable kind.opening_completable follows
    obtain ⟨last, follows', done⟩ := (mem_completions_iff h).mp completes
    refine ⟨rest, cons_mem_sentences.mpr ⟨start, (mem_completions_iff h).mpr ⟨last, ?_, done⟩⟩⟩
    rw [follow?_append, follows, Option.bind_some, follows']

/-! ## Reading -/

theorem read_ok_iff {tokens : List Token} :
    kind.read (fun _ _ _ => .ok ()) () role tokens = .ok () ↔
      ∃ reached, kind.follow? role (tokens.map Token.kind) = some reached := by
  induction tokens generalizing role with
  | nil => simp [read, follow?]
  | cons token rest ih =>
      rw [read, List.map_cons, follow?]
      cases kind.next? role token.kind with
      | none => simp
      | some played => exact ih

theorem read_error {tokens : List Token} {cause : Cause}
    (h : kind.read (fun _ _ _ => .ok ()) () role tokens = .error cause) :
    ∃ before bad after reached, tokens = before ++ bad :: after ∧
      kind.follow? role (before.map Token.kind) = some reached ∧
      kind.next? reached bad.kind = none ∧ cause = .unexpected kind reached bad.kind := by
  induction tokens generalizing role with
  | nil => cases h
  | cons token rest ih =>
      rw [read] at h
      cases step : kind.next? role token.kind with
      | none =>
          rw [step] at h
          cases h
          exact ⟨[], token, rest, role, rfl, rfl, step, rfl⟩
      | some played =>
          rw [step] at h
          obtain ⟨before, bad, after, reached, rfl, follows, refused, rfl⟩ := ih h
          refine ⟨token :: before, bad, after, reached, rfl, ?_, refused, rfl⟩
          simp [follow?, step, follows]

theorem terminator?_cases (kind : LineKind) :
    (∃ last, kind.terminator? = some last) ∨ (kind = .methodReturn ∨ kind = .closingBracket) ∨
      kind = .comment := by
  cases kind <;> simp [terminator?]

end LineKind

/-- The kind of token that a message says was found. -/
def Cause.found? : Cause → Option TokenKind
  | .unexpected _ _ found | .notAlone _ found | .notValue found => some found
  | .badEnd _ last => last
  | _ => none

theorem Cause.message_of_found? {cause : Cause} {kind : TokenKind}
    (h : cause.found? = some kind) :
    ∃ lead, cause.message = lead ++ ", found " ++ kind.describe := by
  have alone : " must stand alone on its line, found " =
      " must stand alone on its line" ++ ", found " := by simp
  have value : "expected a value, found " = "expected a value" ++ ", found " := by simp
  cases cause <;> cases h
  case badEnd expected => exact ⟨"line must end with " ++ expected.describe, rfl⟩
  case notAlone first =>
    refine ⟨first.describe ++ " must stand alone on its line", ?_⟩
    have message := congrArg (fun words => first.describe ++ words ++ kind.describe) alone
    rwa [← String.append_assoc] at message
  case unexpected line role => exact ⟨"expected " ++ line.expectation role, rfl⟩
  case notValue => exact ⟨"expected a value", congrArg (· ++ kind.describe) value⟩

/-! ## The check of a line -/

theorem Line.ofTokens_ok {number : UInt32} {tokens : List Token} {line : Line}
    (h : Line.ofTokens number tokens = .ok line) :
    ∃ first rest, tokens = first :: rest ∧ line.kind.begins first.kind = true ∧
      line = { number, kind := line.kind, tokens } := by
  unfold Line.ofTokens at h
  split at h
  · cases h
  · rename_i first rest
    split at h
    · cases h
    · rename_i kind opens
      cases h
      exact ⟨first, rest, rfl, LineKind.ofFirst?_eq_some.mp opens, rfl⟩

namespace Line

variable {line : Line} {first : Token} {rest : List Token}

theorem last?_cons (h : line.tokens = first :: rest) :
    line.last? = some ((first.kind :: rest.map Token.kind).getLast (List.cons_ne_nil _ _)) := by
  rw [last?, h, List.getLast?_eq_some_getLast (List.cons_ne_nil first rest), Option.map_some]
  simp only [← List.map_cons, List.getLast_map]

theorem read_trivial_ok (h : line.tokens = first :: rest) :
    line.read (fun _ _ _ => .ok ()) () = .ok () ↔
      ∃ reached, line.kind.follow? line.kind.opening (rest.map Token.kind) = some reached := by
  rw [read, h, List.tail_cons]
  exact LineKind.read_ok_iff

theorem checkForm_of_terminator {last : TokenKind} (h : line.kind.terminator? = some last) :
    line.checkForm = (do line.checkEnd last; line.read (fun _ _ _ => .ok ()) ()) := by
  rw [checkForm, h]

theorem checkForm_terminated_ok {last : TokenKind} (shape : line.tokens = first :: rest)
    (start : line.kind.begins first.kind = true) (h : line.kind.terminator? = some last) :
    line.checkForm = .ok () ↔ line.tokens.map Token.kind ∈ line.kind.sentences := by
  have notComment : line.kind ≠ .comment := by
    intro comment
    rw [comment] at h
    cases h
  have fits := LineKind.opening_fits start
  have accepted : line.checkForm = .ok () ↔
      line.last? = some last ∧ line.read (fun _ _ _ => .ok ()) () = .ok () := by
    rw [checkForm_of_terminator h, then_eq_ok, checkEnd]
    split
    · rename_i ends
      simp [ends]
    · rename_i ends
      simp [ends]
  rw [accepted, read_trivial_ok shape, last?_cons shape, Option.some_inj, shape, List.map_cons,
    LineKind.cons_mem_sentences, LineKind.mem_completions_iff notComment]
  constructor
  · intro holds
    obtain ⟨ends, reached, follows⟩ := holds
    refine ⟨start, reached, follows, (LineKind.nil_mem_completions h).mpr ?_⟩
    rw [← ends]
    exact LineKind.follow?_fits fits follows
  · intro holds
    obtain ⟨-, reached, follows, done⟩ := holds
    exact ⟨LineKind.eq_of_fits_terminator h ((LineKind.nil_mem_completions h).mp done)
      (LineKind.follow?_fits fits follows), reached, follows⟩

theorem checkForm_terminated_error {last : TokenKind} {cause : Cause}
    (shape : line.tokens = first :: rest) (start : line.kind.begins first.kind = true)
    (h : line.kind.terminator? = some last) (refused : line.checkForm = .error cause) :
    cause = .badEnd last line.last? ∧ line.last? ≠ some last ∨
      ∃ before bad after role, line.tokens = before ++ bad :: after ∧
        cause = .unexpected line.kind role bad.kind ∧
        line.kind.Begun (before.map Token.kind) ∧
        ¬line.kind.Begun ((before ++ [bad]).map Token.kind) := by
  have notComment : line.kind ≠ .comment := by
    intro comment
    rw [comment] at h
    cases h
  rw [checkForm_of_terminator h, checkEnd] at refused
  split at refused
  · rename_i ends
    rw [read, shape, List.tail_cons] at refused
    obtain ⟨before, bad, after, reached, rfl, follows, stop, rfl⟩ := LineKind.read_error refused
    refine .inr ⟨first :: before, bad, after, reached, shape, rfl, ?_, ?_⟩
    · exact (LineKind.begun_cons notComment start).mpr ⟨reached, follows⟩
    · rw [List.cons_append, List.map_cons, LineKind.begun_cons notComment start]
      simp [LineKind.follow?_append, follows, LineKind.follow?, stop]
  · rename_i ends
    cases refused
    exact .inl ⟨rfl, ends⟩

theorem checkForm_alone (shape : line.tokens = first :: rest)
    (start : line.kind.begins first.kind = true)
    (h : line.kind = .methodReturn ∨ line.kind = .closingBracket) :
    (line.checkForm = .ok () ↔ line.tokens.map Token.kind ∈ line.kind.sentences) ∧
      ∀ cause, line.checkForm = .error cause →
        ∃ extra after, rest = extra :: after ∧ cause = .notAlone first.kind extra.kind ∧
          line.kind.Begun [first.kind] ∧ ¬line.kind.Begun [first.kind, extra.kind] := by
  have check : line.checkForm = line.checkAlone := by
    rcases h with h | h <;> simp [checkForm, h, LineKind.terminator?]
  have sentence (kinds : List TokenKind) :
      first.kind :: kinds ∈ line.kind.sentences ↔ kinds = [] := by
    rw [LineKind.cons_mem_sentences]
    rcases h with h | h <;> rw [h] at start ⊢ <;>
      simp [start, LineKind.completions, Language.mem_one]
  rw [check, checkAlone, shape, List.map_cons, sentence]
  cases rest with
  | nil => simp
  | cons extra after =>
      refine ⟨by simp, fun cause refused => ?_⟩
      cases refused
      refine ⟨extra, after, rfl, rfl, ⟨[], (sentence []).mpr rfl⟩, ?_⟩
      intro holds
      obtain ⟨more, member⟩ := holds
      cases (sentence _).mp member

theorem checkForm_comment (shape : line.tokens = first :: rest)
    (start : line.kind.begins first.kind = true) (h : line.kind = .comment) :
    line.checkForm = .ok () ∧ line.tokens.map Token.kind ∈ line.kind.sentences := by
  constructor
  · simp [checkForm, h, LineKind.terminator?]
  · rw [shape, List.map_cons, LineKind.cons_mem_sentences, h]
    exact ⟨h ▸ start, trivial⟩

theorem checkForm_ok_iff (shape : line.tokens = first :: rest)
    (start : line.kind.begins first.kind = true) :
    line.checkForm = .ok () ↔ line.tokens.map Token.kind ∈ line.kind.sentences := by
  rcases line.kind.terminator?_cases with ⟨last, h⟩ | h | h
  · exact checkForm_terminated_ok shape start h
  · exact (checkForm_alone shape start h).1
  · obtain ⟨accepted, member⟩ := checkForm_comment shape start h
    exact iff_of_true accepted member

theorem follows_of_form (shape : line.tokens = first :: rest)
    (start : line.kind.begins first.kind = true) (form : line.checkForm = .ok ())
    (kind : line.kind ≠ .comment) :
    ∃ reached, line.kind.follow? line.kind.opening (rest.map Token.kind) = some reached ∧
      [] ∈ line.kind.completions reached := by
  have sentence := (checkForm_ok_iff shape start).mp form
  rw [shape, List.map_cons, LineKind.cons_mem_sentences, LineKind.mem_completions_iff kind]
    at sentence
  exact sentence.2

/-- The tokens of a line before `bad` are the beginning of some sentence of its kind, and together
with `bad` they are not. -/
def StopsAt (line : Line) (bad : Token) : Prop :=
  ∃ before after, line.tokens = before ++ bad :: after ∧
    line.kind.Begun (before.map Token.kind) ∧ ¬line.kind.Begun ((before ++ [bad]).map Token.kind)

theorem checkForm_error {cause : Cause} (shape : line.tokens = first :: rest)
    (start : line.kind.begins first.kind = true) (refused : line.checkForm = .error cause) :
    cause.kind = .form ∧ (line.kind.terminator? = none ∨ line.last? = line.kind.terminator? →
      ∃ bad, cause.found? = some bad.kind ∧ line.StopsAt bad) := by
  rcases line.kind.terminator?_cases with ⟨last, h⟩ | h | h
  · rcases checkForm_terminated_error shape start h refused with
      ⟨rfl, ends⟩ | ⟨before, bad, after, role, split, rfl, begun, stops⟩
    · refine ⟨rfl, fun ended => ?_⟩
      rcases ended with none | ended
      · rw [h] at none
        cases none
      · exact absurd (ended.trans h) ends
    · exact ⟨rfl, fun _ => ⟨bad, rfl, before, after, split, begun, stops⟩⟩
  · obtain ⟨extra, after, rfl, rfl, begun, stops⟩ := (checkForm_alone shape start h).2 cause refused
    exact ⟨rfl, fun _ => ⟨extra, rfl, [first], after, shape, begun, stops⟩⟩
  · rw [(checkForm_comment shape start h).1] at refused
    cases refused

end Line

/-- A line that has been read from a text and is well formed. -/
structure Line.WellFormed (line : Line) : Prop where
  read : ∃ text, line.tokens = SJava.tokens text
  begun : ∃ first rest, line.tokens = first :: rest ∧ line.kind.begins first.kind = true
  form : line.checkForm = .ok ()

namespace Line.WellFormed

variable {line : Line}

theorem sentence (h : line.WellFormed) : line.tokens.map Token.kind ∈ line.kind.sentences := by
  obtain ⟨first, rest, shape, start⟩ := h.begun
  exact (checkForm_ok_iff shape start).mp h.form

theorem follows (h : line.WellFormed) (kind : line.kind ≠ .comment) :
    ∃ first rest reached, line.tokens = first :: rest ∧
      line.kind.begins first.kind = true ∧
      line.kind.follow? line.kind.opening (rest.map Token.kind) = some reached ∧
      [] ∈ line.kind.completions reached := by
  obtain ⟨first, rest, shape, start⟩ := h.begun
  obtain ⟨reached, follows, done⟩ := follows_of_form shape start h.form kind
  exact ⟨first, rest, reached, shape, start, follows, done⟩

end Line.WellFormed

/-- A line made from any tokens is well formed exactly if they are a sentence of its kind. If it is
not, the fault is one of form at the line's number, and for a line that ends in the right token, or
has to stand alone, its message names the first token that no sentence goes on with. -/
theorem checkForm_decides_sentences {number : UInt32} {tokens : List Token} {line : Line}
    (made : Line.ofTokens number tokens = .ok line) :
    (line.located line.checkForm = .ok () ↔ tokens.map Token.kind ∈ line.kind.sentences) ∧
      ∀ fault, line.located line.checkForm = .error fault →
        fault.diagnostic.kind = .form ∧ fault.diagnostic.line = number ∧
          (line.kind.terminator? = none ∨ line.last? = line.kind.terminator? →
            ∃ bad lead, fault.cause.found? = some bad.kind ∧
              fault.diagnostic.message = lead ++ ", found " ++ bad.kind.describe ∧
              line.StopsAt bad) := by
  obtain ⟨first, rest, rfl, start, shape⟩ := Line.ofTokens_ok made
  have numbered : line.number = number := by rw [shape]
  have tokens : line.tokens = first :: rest := by rw [shape]
  rw [Line.located]
  cases outcome : line.checkForm with
  | ok =>
      constructor
      · rw [← tokens, ← Line.checkForm_ok_iff tokens start, outcome]
        exact iff_of_true rfl rfl
      · rintro fault refused
        cases refused
  | error cause =>
      obtain ⟨kind, names⟩ := Line.checkForm_error tokens start outcome
      constructor
      · rw [← tokens, ← Line.checkForm_ok_iff tokens start, outcome]
        exact iff_of_false nofun nofun
      · rintro fault ⟨⟩
        refine ⟨kind, numbered, fun ended => ?_⟩
        obtain ⟨bad, found, stops⟩ := names ended
        obtain ⟨lead, message⟩ := Cause.message_of_found? found
        exact ⟨bad, lead, found, message, stops⟩

/-- `final int a;` ends as it should, and is refused at the semicolon, where a value is missing. -/
theorem checkForm_decides_sentences_valueless :
    let line : Line :=
      { number := 3
        kind := .finalDeclaration
        tokens := [⟨.finalWord, none⟩, ⟨.intWord, none⟩, ⟨.variableName, some "a"⟩,
          ⟨.semicolon, none⟩] }
    Line.ofTokens 3 line.tokens = .ok line ∧ line.last? = line.kind.terminator? ∧
      line.located line.checkForm = .error ⟨3, .unexpected .finalDeclaration .name .semicolon⟩ ∧
        ∃ bad : Token, bad.kind = .semicolon ∧ line.StopsAt bad := by
  intro line
  have made : Line.ofTokens 3 line.tokens = .ok line := rfl
  have refused : line.located line.checkForm =
      .error ⟨3, .unexpected .finalDeclaration .name .semicolon⟩ := rfl
  obtain ⟨-, -, names⟩ := (checkForm_decides_sentences made).2 _ refused
  obtain ⟨bad, -, found, -, stops⟩ := names (.inr rfl)
  exact ⟨made, rfl, refused, bad, (Option.some_inj.mp found).symm, stops⟩

end SJava
