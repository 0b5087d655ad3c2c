import SJava.Proofs.Roles

/-!
# Faults and their places

Which faults the verifier can give, and at which lines. Feeding a line gives the fault at once, at
the number that the line would have been stored under. The final check gives the fault of a stored
line, and none of them is one of form any more, since every stored line is well formed and a value
that is read for its meaning is a literal or a variable (`Line.checkMeaning_failsIn`). Lines that
fail leave their declarations and scopes in the registry, so nothing is assumed of it here.
-/

namespace SJava

/-! ## Texts without tokens -/

namespace Pattern

variable {p : Pattern} {c : Char} {cs : List Char}

/-- Whether a text of a pattern can begin with a character. -/
def canBegin (c : Char) : Pattern → Bool
  | .nothing | .empty => false
  | .one allowed => allowed c
  | .seq first second => first.canBegin c || first.isNullable && second.canBegin c
  | .either left right => left.canBegin c || right.canBegin c
  | .many body => body.canBegin c

theorem canBegin_of_matches (found : Matches p (c :: cs)) : p.canBegin c = true := by
  induction p generalizing cs with
  | nothing => exact absurd found not_matches_nothing
  | empty => cases matches_empty.mp found
  | one allowed =>
      obtain ⟨_, allows, shape⟩ := matches_one.mp found
      cases shape
      exact allows
  | seq first second ihFirst ihSecond =>
      obtain ⟨xs, ys, left, right, split⟩ := matches_seq.mp found
      cases xs with
      | nil =>
          cases split
          simp [canBegin, isNullable_iff.mpr left, ihSecond right]
      | cons d xs =>
          cases split
          simp [canBegin, ihFirst left]
  | either left right ihLeft ihRight =>
      rcases matches_either.mp found with found | found
      · simp [canBegin, ihLeft found]
      · simp [canBegin, ihRight found]
  | many body ih =>
      obtain ⟨xs, ys, found, -⟩ := matches_many_cons.mp found
      exact ih found

theorem allowed_of_matches_many {allowed : Char → Bool}
    (found : Matches (.many (.one allowed)) cs) : ∀ c ∈ cs, allowed c = true := by
  induction cs with
  | nil => exact fun c member => absurd member List.not_mem_nil
  | cons d cs ih =>
      obtain ⟨xs, ys, one, more, rfl⟩ := matches_many_cons.mp found
      obtain ⟨_, allows, shape⟩ := matches_one.mp one
      cases shape
      intro c member
      rcases List.mem_cons.mp member with rfl | member
      · exact allows
      · exact ih more c member

theorem allowed_of_matches_oneOrMore {allowed : Char → Bool}
    (found : Matches (oneOrMore (.one allowed)) cs) : ∀ c ∈ cs, allowed c = true := by
  obtain ⟨xs, ys, one, more, rfl⟩ := matches_seq.mp found
  exact allowed_of_matches_many (.more one more)

end Pattern

theorem Lexeme.front_matches (c : Char) (cs : List Char) :
    (front (c :: cs)).kind.pattern.Matches (front (c :: cs)).text := by
  unfold front
  split
  · rename_i kind length found
    obtain ⟨_, -, found⟩ := List.exists_of_findSome?_eq_some found
    obtain ⟨_, longest, found⟩ := Option.map_eq_some_iff.mp found
    cases found
    exact (Pattern.longest_eq_some longest).2.1
  · exact .one rfl

theorem matches_of_mem_lexemes {text : List Char} {lexeme : Lexeme}
    (member : lexeme ∈ lexemes text) :
    lexeme.kind.pattern.Matches lexeme.text ∧ lexeme.text ≠ [] := by
  match text with
  | [] => cases member
  | c :: cs =>
      have pos := Lexeme.front_length_pos c cs
      rw [lexemes_cons] at member
      rcases List.mem_cons.mp member with rfl | member
      · exact ⟨Lexeme.front_matches c cs, List.ne_nil_of_length_pos pos⟩
      · exact matches_of_mem_lexemes member
termination_by text.length
decreasing_by
  simp only [List.length_drop, List.length_cons]
  omega

theorem Lexeme.token?_eq_none {lexeme : Lexeme} (none : lexeme.token? = none) :
    lexeme.kind = .space := by
  unfold token? at none
  split at none <;> first | assumption | cases none

theorem isWhiteSpace_of_isSpace {c : Char} (space : Token.isSpace c = true) :
    isWhiteSpace c = true := by
  simp only [Token.isSpace, Bool.or_eq_true, beq_iff_eq] at space
  rcases space with ((((rfl | rfl) | rfl) | rfl) | rfl) | rfl <;> rfl

/-- Only a blank text has no tokens. -/
theorem isBlank_of_tokens_nil {text : String} (empty : tokens text = []) : isBlank text = true := by
  rw [isBlank, List.all_eq_true]
  intro c member
  rw [← flatten_lexemes text.toList] at member
  obtain ⟨_, piece, inside⟩ := List.mem_flatten.mp member
  obtain ⟨lexeme, stored, rfl⟩ := List.mem_map.mp piece
  have isSpace := Lexeme.token?_eq_none (List.filterMap_eq_nil_iff.mp empty lexeme stored)
  obtain ⟨found, -⟩ := matches_of_mem_lexemes stored
  rw [isSpace] at found
  exact isWhiteSpace_of_isSpace (Pattern.allowed_of_matches_oneOrMore found c inside)

theorem visible_of_isAlpha {c : Char} (alpha : c.isAlpha = true) :
    0x20 < c.toNat ∧ c.toNat < 0x7f := by
  have ranges : (65 ≤ c.toNat ∧ c.toNat ≤ 90) ∨ 97 ≤ c.toNat ∧ c.toNat ≤ 122 := by
    rcases (Bool.or_eq_true _ _).mp alpha with upper | lower
    · exact .inl (of_decide_eq_true upper)
    · exact .inr (((Bool.and_eq_true _ _).mp lower).imp of_decide_eq_true of_decide_eq_true)
  omega

theorem visible_of_canBegin {kind : TokenKind} {c : Char}
    (begins : kind.pattern.canBegin c = true) :
    kind = .space ∨ kind = .other ∨ 0x20 < c.toNat ∧ c.toNat < 0x7f := by
  cases kind with
  | space => exact .inl rfl
  | other => exact .inr (.inl rfl)
  | methodName =>
      simp [TokenKind.pattern, Pattern.canBegin, Pattern.isNullable] at begins
      exact .inr (.inr (visible_of_isAlpha begins))
  | variableName =>
      simp [TokenKind.pattern, Pattern.canBegin, Pattern.char, Pattern.isNullable] at begins
      rcases begins with alpha | rfl
      · exact .inr (.inr (visible_of_isAlpha alpha))
      · exact .inr (.inr (by decide))
  | _ =>
      simp [TokenKind.pattern, Pattern.canBegin, Pattern.char, Pattern.word, Pattern.optional,
        Pattern.oneOrMore, Pattern.isNullable, Char.isDigit, Char.ext_iff, ← UInt32.toNat_inj,
        UInt32.le_iff_toNat_le] at begins ⊢
      omega

theorem not_visible_of_isWhiteSpace {c : Char} (space : isWhiteSpace c = true) :
    ¬(0x20 < c.toNat ∧ c.toNat < 0x7f) := by
  simp [isWhiteSpace, whiteSpaceRanges] at space
  omega

/-- The tokens of a blank text are of no use: no line begins with them. -/
theorem other_of_isBlank {text : String} (blank : isBlank text = true) {token : Token}
    (member : token ∈ tokens text) : token.kind = .other := by
  obtain ⟨lexeme, stored, made⟩ := List.mem_filterMap.mp member
  obtain ⟨found, notEmpty⟩ := matches_of_mem_lexemes stored
  obtain ⟨c, cs, shape⟩ := List.exists_cons_of_ne_nil notEmpty
  have inside : c ∈ text.toList := by
    rw [← flatten_lexemes text.toList]
    exact List.mem_flatten.mpr ⟨_, List.mem_map_of_mem stored, by simp [shape]⟩
  have space := List.all_eq_true.mp blank c inside
  rw [shape] at found
  rcases visible_of_canBegin (Pattern.canBegin_of_matches found) with kind | kind | visible
  · rw [Lexeme.token?, kind] at made
    cases made
  · rw [Lexeme.token?, kind] at made
    cases made
    rfl
  · exact absurd visible (not_visible_of_isWhiteSpace space)

theorem not_isBlank_of_ofTokens {number : UInt32} {text : String} {line : Line}
    (made : Line.ofTokens number (tokens text) = .ok line) : isBlank text = false := by
  rw [← Bool.not_eq_true]
  intro blank
  obtain ⟨first, rest, shape, start, -⟩ := Line.ofTokens_ok made
  have other := other_of_isBlank blank (by rw [shape]; exact List.mem_cons_self)
  rw [other] at start
  cases kind : line.kind <;> rw [kind] at start <;> cases start

/-! ## The phases of failures -/

/-- Whether an outcome, where it is a failure, belongs to one of some phases. -/
def FailsIn {α : Type} (phases : List Phase) (outcome : Except Cause α) : Prop :=
  ∀ cause, outcome = .error cause → cause.kind.phase ∈ phases

namespace FailsIn

variable {α β : Type} {phases : List Phase} {outcome : Except Cause α} {cause : Cause}

theorem ok {value : α} : FailsIn phases (.ok value) := fun _ failed => nomatch failed

theorem error (h : cause.kind.phase ∈ phases) :
    FailsIn phases (.error cause : Except Cause α) := by
  rintro _ ⟨⟩
  exact h

theorem mono {wider : List Phase} (first : FailsIn phases outcome) (more : phases ⊆ wider) :
    FailsIn wider outcome := fun cause failed => more (first cause failed)

theorem bind {next : α → Except Cause β} (first : FailsIn phases outcome)
    (second : ∀ value, FailsIn phases (next value)) : FailsIn phases (outcome >>= next) := by
  cases outcome with
  | error cause => exact error (first cause rfl)
  | ok value => exact second value

theorem map {next : α → β} (first : FailsIn phases outcome) :
    FailsIn phases (outcome.map next) := by
  cases outcome with
  | error cause => exact error (first cause rfl)
  | ok value => exact ok

theorem foldlM {visit : β → α → Except Cause β} {visited : List α} {state : β}
    (visits : ∀ state, ∀ x ∈ visited, FailsIn phases (visit state x)) :
    FailsIn phases (visited.foldlM visit state) := by
  induction visited generalizing state with
  | nil => exact ok
  | cons x rest ih =>
      rw [List.foldlM_cons]
      apply bind (visits state x List.mem_cons_self)
      intro state
      exact ih fun state y member => visits state y (List.mem_cons_of_mem x member)

end FailsIn

/-! ## Failures of the final check -/

namespace VariableTable

variable {vars : VariableTable} {line : Line} {name : String} {scope : Scope}

theorem resolve_failsIn : FailsIn [.meaning] (vars.resolve name scope) := by
  unfold resolve
  split
  · exact .ok
  · exact .error (.head _)

theorem checkReadable_failsIn {v : Variable} : FailsIn [.meaning] (v.checkReadable line) := by
  unfold Variable.checkReadable
  split
  · exact .ok
  · exact .error (.head _)

theorem valueType_failsIn {token : Token} (value : token.kind.isValue = true) :
    FailsIn [.meaning] (vars.valueType line token) := by
  unfold valueType
  split
  · apply resolve_failsIn.bind
    intro v
    exact checkReadable_failsIn.bind fun _ => .ok
  · rename_i notName
    have literal : token.kind.isLiteral = true := by
      simpa [TokenKind.isValue, notName] using value
    obtain ⟨type, typed⟩ : ∃ type, token.kind.valueType? = some type := by
      cases kind : token.kind <;> rw [kind] at literal <;> first | exact ⟨_, rfl⟩ | cases literal
    rw [typed]
    exact .ok

theorem assignAll_failsIn {place : Initialization} {names : List String} :
    FailsIn [.meaning] (vars.assignAll place names).2 := by
  induction names generalizing vars with
  | nil => exact .ok
  | cons name names ih =>
      rw [assignAll, assign]
      cases resolved : vars.resolve name place.scope with
      | error cause => exact .error (resolve_failsIn cause resolved)
      | ok => exact ih

theorem assignLines_error {lines : List Line} {fault : Fault}
    (failed : (vars.assignLines lines).2 = .error fault) :
    ∃ line ∈ lines, fault.line = line.number ∧ fault.cause.kind.phase = .meaning := by
  induction lines generalizing vars with
  | nil => cases failed
  | cons line rest ih =>
      rw [assignLines] at failed
      split at failed
      · rename_i cause outcome
        cases failed
        have phase := assignAll_failsIn cause (congrArg Prod.snd outcome)
        exact ⟨line, List.mem_cons_self, rfl, List.mem_singleton.mp phase⟩
      · obtain ⟨later, member, placed⟩ := ih failed
        exact ⟨later, List.mem_cons_of_mem line member, placed⟩

end VariableTable

namespace Line

variable {line : Line} {vars : VariableTable} {symbols : Symbols} {previous : Option LineKind}
  {phases : List Phase}

/-- A visitor of a well formed line only has to be judged on tokens that fit their roles. -/
theorem read_failsIn {σ : Type} {visit : σ → Role → Token → Except Cause σ} {state : σ}
    (formed : line.WellFormed) (kind : line.kind ≠ .comment)
    (visits : ∀ state role token, role.fits token.kind = true →
      FailsIn phases (visit state role token)) : FailsIn phases (line.read visit state) := by
  obtain ⟨first, rest, shape, start⟩ := formed.begun
  rw [read_eq_foldlM_roles shape start formed.form kind, roles_eq shape, List.tail_cons]
  exact .foldlM fun state _ member => visits state _ _ (LineKind.fits_of_mem_plays member)

theorem checkDeclaration_failsIn (formed : line.WellFormed) (kind : line.kind ≠ .comment) :
    FailsIn [.meaning] (line.checkDeclaration vars) := by
  refine .bind (read_failsIn formed kind fun name role token fits => ?_) fun _ => .ok
  cases role with
  | value =>
      apply VariableTable.resolve_failsIn.bind
      intro target
      apply (VariableTable.valueType_failsIn fits).bind
      intro found
      split
      · exact .ok
      · exact .error (.head _)
  | _ => exact .ok

theorem checkAssignment_failsIn (formed : line.WellFormed) (kind : line.kind ≠ .comment) :
    FailsIn [.meaning] (line.checkAssignment vars) := by
  apply VariableTable.resolve_failsIn.bind
  intro target
  split
  · exact .error (.head _)
  · refine read_failsIn formed kind fun _ role token fits => ?_
    cases role with
    | value =>
        apply (VariableTable.valueType_failsIn fits).bind
        intro found
        split
        · exact .ok
        · exact .error (.head _)
    | _ => exact .ok

theorem checkArguments_failsIn {method : String} {position : Nat} {slots types : List ValueType} :
    FailsIn [.meaning] (checkArguments method position slots types) := by
  fun_induction checkArguments method position slots types with
  | case1 _ _ _ _ _ _ ih => exact ih
  | case2 => exact .error (.head _)
  | case3 => exact .ok

theorem checkCall_failsIn (formed : line.WellFormed) (kind : line.kind ≠ .comment) :
    FailsIn [.meaning] (line.checkCall symbols) := by
  unfold checkCall
  split
  · exact .error (.head _)
  · apply FailsIn.bind
    · unfold MethodTable.resolve
      split
      · exact .ok
      · exact .error (.head _)
    · intro method
      apply FailsIn.bind
      · refine read_failsIn formed kind fun types role token fits => ?_
        cases role with
        | value => exact (VariableTable.valueType_failsIn fits).bind fun _ => .ok
        | _ => exact .ok
      · intro types
        split
        · exact .error (.head _)
        · exact checkArguments_failsIn

theorem checkCondition_failsIn (formed : line.WellFormed) (kind : line.kind ≠ .comment) :
    FailsIn [.meaning] (line.checkCondition vars) := by
  unfold checkCondition
  split
  · exact .error (.head _)
  · refine read_failsIn formed kind fun _ role token _ => ?_
    cases role with
    | value =>
        rw [visitAtom]
        split
        · apply VariableTable.resolve_failsIn.bind
          intro v
          split
          · exact .error (.head _)
          · exact VariableTable.checkReadable_failsIn
        · exact .ok
    | _ => exact .ok

/-- No check of meaning finds a fault of form in a well formed line, whatever the symbols are. -/
theorem checkMeaning_failsIn (formed : line.WellFormed) :
    FailsIn [.meaning] (line.checkMeaning previous symbols) := by
  rw [checkMeaning]
  cases kind : line.kind with
  | declaration | finalDeclaration => exact checkDeclaration_failsIn formed (by simp [kind])
  | assignment => exact checkAssignment_failsIn formed (by simp [kind])
  | methodCall => exact checkCall_failsIn formed (by simp [kind])
  | ifHeader | whileHeader => exact checkCondition_failsIn formed (by simp [kind])
  | methodHeader =>
      show FailsIn _ line.checkHeader
      unfold checkHeader
      split
      · exact .ok
      · exact .error (.head _)
  | methodReturn =>
      show FailsIn _ line.checkReturn
      unfold checkReturn
      split
      · exact .error (.head _)
      · exact .ok
  | closingBracket =>
      show FailsIn _ (line.checkClosing previous)
      unfold checkClosing
      split
      · exact .error (.head _)
      · exact .ok
  | comment => exact .ok

end Line

namespace Symbols

variable {symbols : Symbols} {lines : List Line} {fault : Fault}

theorem checkLines_error {previous : Option LineKind} (formed : ∀ line ∈ lines, line.WellFormed)
    (failed : symbols.checkLines previous lines = .error fault) :
    ∃ line ∈ lines, fault.line = line.number ∧ fault.cause.kind.phase = .meaning := by
  induction lines generalizing previous with
  | nil => cases failed
  | cons line rest ih =>
      rw [checkLines] at failed
      cases outcome : line.checkMeaning previous symbols with
      | error cause =>
          rw [outcome] at failed
          cases failed
          have phase := Line.checkMeaning_failsIn (formed line List.mem_cons_self) cause outcome
          exact ⟨line, List.mem_cons_self, rfl, List.mem_singleton.mp phase⟩
      | ok =>
          rw [outcome] at failed
          obtain ⟨later, member, placed⟩ :=
            ih (fun later member => formed later (List.mem_cons_of_mem line member)) failed
          exact ⟨later, List.mem_cons_of_mem line member, placed⟩

theorem checkEnd_error (failed : checkEnd lines = .error fault) :
    ∃ line ∈ lines, fault.line = line.number ∧ fault.cause.kind.phase = .nesting := by
  unfold checkEnd at failed
  split at failed
  · cases failed
  · rename_i last found
    split at failed
    · cases failed
    · cases failed
      exact ⟨last, List.mem_of_getLast? found, rfl, rfl⟩

theorem check_error (formed : ∀ line ∈ lines, line.WellFormed)
    (failed : (symbols.check lines).2 = .error fault) :
    ∃ line ∈ lines, fault.line = line.number ∧ fault.cause.kind.phase ∈ [.meaning, .nesting] := by
  unfold check at failed
  split at failed
  · rename_i outcome
    cases failed
    obtain ⟨line, member, number, phase⟩ :=
      VariableTable.assignLines_error (congrArg Prod.snd outcome)
    exact ⟨line, member, number, phase ▸ .head _⟩
  · rename_i vars assigned
    simp only at failed
    cases walked : Symbols.checkLines { symbols with vars } none lines with
    | error =>
        rw [walked] at failed
        cases failed
        obtain ⟨line, member, number, phase⟩ := checkLines_error formed walked
        exact ⟨line, member, number, phase ▸ .head _⟩
    | ok =>
        rw [walked] at failed
        obtain ⟨line, member, number, phase⟩ := checkEnd_error failed
        exact ⟨line, member, number, phase ▸ .tail _ (.head _)⟩

end Symbols

/-! ## Failures of single lines -/

theorem VariableTable.declareAll_failsIn {table : VariableTable} {vs : List Variable} :
    FailsIn [.declarations] (table.declareAll vs).2 := by
  intro cause failed
  rw [declareAll_error failed]
  exact .head _

namespace Registry

variable {registry next : Registry} {raw line : Line} {cause : Cause} {number : UInt32}
  {text : String}

theorem declareVariables_failsIn : FailsIn [.declarations] (registry.declareVariables line).2 :=
  VariableTable.declareAll_failsIn.map

theorem declareMethod_failsIn : FailsIn [.declarations] (registry.declareMethod line).2 := by
  unfold declareMethod
  split
  · exact .ok
  · simp only
    split
    · rename_i refused
      unfold MethodTable.declare at refused
      split at refused <;> cases refused
      exact .error (.head _)
    · exact VariableTable.declareAll_failsIn.map

theorem register_failsIn : FailsIn [.declarations, .nesting] (registry.register raw).2 := by
  have declares : [Phase.declarations] ⊆ [.declarations, .nesting] := by decide
  unfold register
  cases kind : raw.kind with
  | declaration | finalDeclaration => exact declareVariables_failsIn.mono declares
  | methodHeader => exact declareMethod_failsIn.mono declares
  | closingBracket =>
      simp only
      split
      · exact .error (.tail _ (.head _))
      · exact .ok
  | _ => exact .ok

theorem enter_error (failed : registry.enter number text = (next, .error cause)) :
    cause.kind.phase ∈ [.tokens, .declarations, .nesting] ∧
      (cause = .noTokens → tokens text = []) := by
  unfold enter at failed
  split at failed
  · rename_i refused
    cases failed
    unfold Line.ofTokens at refused
    split at refused
    · rename_i empty
      cases refused
      exact ⟨.head _, fun _ => empty⟩
    · split at refused <;> cases refused
      exact ⟨.head _, nofun⟩
  · have phase := register_failsIn cause (congrArg Prod.snd failed)
    refine ⟨.tail _ phase, ?_⟩
    rintro rfl
    cases phase with
    | tail _ nesting => cases nesting with | tail _ none => cases none

end Registry

namespace Verifier

variable {verifier later : Verifier} {texts : List String} {fault : Fault}

theorem feed_error {text : String} (failed : verifier.feed text = (later, .error fault)) :
    later.lines = verifier.lines ∧ fault.line = verifier.nextNumber ∧ fault.cause ≠ .noTokens ∧
      fault.cause.kind.phase ∈ [.tokens, .declarations, .form, .nesting] := by
  unfold feed at failed
  split at failed
  · cases failed
  · rename_i notBlank
    split at failed
    · rename_i cause refused
      cases failed
      obtain ⟨phase, reason⟩ := Registry.enter_error refused
      refine ⟨rfl, rfl, fun empty => notBlank (isBlank_of_tokens_nil (reason empty)), ?_⟩
      simp at phase ⊢
      tauto
    · rename_i registry line entered
      obtain ⟨number, -, first, rest, shape, start⟩ := Registry.enter_begun entered
      cases form : line.checkForm with
      | error cause =>
          rw [form] at failed
          cases failed
          have isForm := (Line.checkForm_error shape start form).1
          refine ⟨rfl, number, ?_, ?_⟩
          · rintro rfl
            cases isForm
          · rw [show (line.fault cause).cause.kind = .form from isForm]
            exact .tail _ (.tail _ (.head _))
      | ok =>
          rw [form] at failed
          cases failed

/-- The stored lines are well formed and numbered from one. Nothing is said of the registry, which
failed lines may have left in any state. -/
structure Stores (verifier : Verifier) : Prop where
  formed : ∀ line ∈ verifier.lines.toList, line.WellFormed
  numbers : verifier.lines.toList.map Line.number =
    (List.range verifier.lines.size).map fun i => .ofNat i + 1

theorem feed_stores (stores : verifier.Stores) (text : String) : (verifier.feed text).1.Stores := by
  cases fed : verifier.feed text with
  | mk later outcome =>
      cases outcome with
      | error fault =>
          have same := (feed_error fed).1
          exact ⟨same ▸ stores.formed, same ▸ stores.numbers⟩
      | ok =>
          rcases feed_ok fed with rfl | ⟨line, entered, form, stored⟩
          · exact stores
          · obtain ⟨number, formed, -⟩ := Registry.enter_formed entered form
            constructor
            · simp only [stored, Array.toList_push, List.mem_append, List.mem_singleton]
              rintro line (member | rfl)
              · exact stores.formed line member
              · exact formed
            · simp [stored, Array.toList_push, List.range_succ, stores.numbers, number, nextNumber]

theorem feed_size (verifier : Verifier) (text : String) :
    (verifier.feed text).1.lines.size ≤ verifier.lines.size + 1 := by
  cases fed : verifier.feed text with
  | mk later outcome =>
      cases outcome with
      | error fault => simp [(feed_error fed).1]
      | ok =>
          rcases feed_ok fed with rfl | ⟨line, -, -, stored⟩
          · simp
          · simp [stored]

theorem feedEach_stores (stores : verifier.Stores) (texts : List String) :
    (verifier.feedEach texts).1.Stores := by
  induction texts generalizing verifier with
  | nil => exact stores
  | cons text rest ih => exact ih (feed_stores stores text)

theorem feedAll_stores {texts : List String} (stores : verifier.Stores)
    (fed : verifier.feedAll texts = .ok later) : later.Stores := by
  induction texts generalizing verifier with
  | nil =>
      cases fed
      exact stores
  | cons text texts ih =>
      rw [feedAll] at fed
      split at fed
      · cases fed
      · rename_i next step
        exact ih (by simpa [step] using feed_stores stores text) fed

theorem feedEach_size (verifier : Verifier) (texts : List String) :
    (verifier.feedEach texts).1.lines.size ≤ verifier.lines.size + texts.length := by
  induction texts generalizing verifier with
  | nil => exact Nat.le_refl _
  | cons text rest ih =>
      calc
        ((verifier.feed text).1.feedEach rest).1.lines.size
          ≤ (verifier.feed text).1.lines.size + rest.length := ih _
        _ ≤ verifier.lines.size + 1 + rest.length :=
          Nat.add_le_add_right (verifier.feed_size text) _
        _ = verifier.lines.size + (rest.length + 1) := by omega

theorem feedEach_outcome {place : Nat} :
    (verifier.feedEach texts).2[place]? =
      texts[place]?.map fun text => ((verifier.feedEach (texts.take place)).1.feed text).2 := by
  induction texts generalizing verifier place with
  | nil => rfl
  | cons text rest ih =>
      cases place with
      | zero => rfl
      | succ place => exact ih

theorem stores_start : Stores {} := ⟨fun _ member => absurd member List.not_mem_nil, rfl⟩

theorem Stores.numbers_toNat (stores : verifier.Stores) (few : verifier.lines.size < 2 ^ 32) :
    verifier.lines.toList.map (·.number.toNat) = List.range' 1 verifier.lines.size := by
  have numbers := congrArg (List.map UInt32.toNat) stores.numbers
  rw [List.map_map, List.map_map] at numbers
  refine numbers.trans ?_
  rw [List.range'_eq_map_range]
  refine List.map_congr_left fun i member => ?_
  have inside := List.mem_range.mp member
  rw [Function.comp_apply, toNat_ofNat_succ (by omega), Nat.add_comm]

theorem finish_error (stores : verifier.Stores) (failed : verifier.finish = .error fault) :
    ∃ line ∈ verifier.lines.toList, fault.line = line.number ∧
      fault.cause.kind.phase ∈ [.meaning, .nesting] := by
  unfold finish at failed
  split at failed
  · rename_i outcome
    cases failed
    exact Symbols.check_error stores.formed (congrArg Prod.snd outcome)
  · cases failed

end Verifier

namespace FaultKind

variable {kind : FaultKind}

theorem of_feed (h : kind.phase ∈ [.tokens, .declarations, .form, .nesting]) :
    kind ∈ [.malformedLine, .duplicateDeclaration, .duplicateMethod, .form,
      .unbalancedBrackets] := by
  cases kind <;> simp [phase] at h ⊢

theorem of_end (h : kind.phase ∈ [.meaning, .nesting]) :
    kind ∈ [.unknownMethod, .mismatch, .unboundVariable, .uninitializedUse, .finalReassignment,
      .illegalScope, .unbalancedBrackets] := by
  cases kind <;> simp [phase] at h ⊢

end FaultKind

/-- Whatever lines are fed, also after one that fails, the stored lines are numbered in order. A
line that fails does so at the number it would have got, never for want of tokens, and not by its
meaning. A program that fails in the end does so at one of its lines, by what that line means or by
the block that it is in. -/
theorem feedEach_faults {texts : List String} {last : Verifier}
    {outcomes : List (Except Fault Unit)} (few : texts.length < 2 ^ 32)
    (fed : Verifier.feedEach {} texts = (last, outcomes)) :
    last.lines.toList.map (·.number.toNat) = List.range' 1 last.lines.size ∧
      (∀ place fault, outcomes[place]? = some (.error fault) →
        fault.diagnostic.line.toNat =
            (Verifier.feedEach {} (texts.take place)).1.lines.size + 1 ∧
          fault.diagnostic.kind ∈ [.malformedLine, .duplicateDeclaration, .duplicateMethod, .form,
            .unbalancedBrackets] ∧ fault.cause ≠ .noTokens) ∧
      (∀ fault, last.finish = .error fault →
        (∃ line ∈ last.lines.toList, fault.diagnostic.line = line.number) ∧
          fault.diagnostic.kind ∈ [.unknownMethod, .mismatch, .unboundVariable, .uninitializedUse,
            .finalReassignment, .illegalScope, .unbalancedBrackets]) ∧
      ∀ text : String, (∃ c ∈ text.toList, isWhiteSpace c = false) → tokens text ≠ [] := by
  have stores : last.Stores := by
    simpa only [fed] using Verifier.feedEach_stores Verifier.stores_start texts
  have size : last.lines.size ≤ texts.length := by
    simpa [fed] using Verifier.feedEach_size {} texts
  refine ⟨stores.numbers_toNat (by omega), fun place fault given => ?_, fun fault failed => ?_,
    fun text visible empty => ?_⟩
  · have outcomes_eq : outcomes = (Verifier.feedEach {} texts).2 := by rw [fed]
    rw [outcomes_eq, Verifier.feedEach_outcome, Option.map_eq_some_iff] at given
    obtain ⟨text, found, failed⟩ := given
    obtain ⟨-, number, tokened, phase⟩ := Verifier.feed_error (Prod.ext rfl failed)
    refine ⟨?_, FaultKind.of_feed phase, tokened⟩
    have inside := (List.getElem?_eq_some_iff.mp found).1
    have taken : (Verifier.feedEach {} (texts.take place)).1.lines.size ≤ place := by
      have size := Verifier.feedEach_size {} (texts.take place)
      simp at size
      omega
    rw [Fault.diagnostic, number, Verifier.nextNumber, toNat_ofNat_succ (by omega)]
  · obtain ⟨line, member, number, phase⟩ := Verifier.finish_error stores failed
    exact ⟨⟨line, member, number⟩, FaultKind.of_end phase⟩
  · obtain ⟨c, member, ink⟩ := visible
    have space := List.all_eq_true.mp (isBlank_of_tokens_nil empty) c member
    rw [ink] at space
    cases space

/-- The second line fails at the number that the third then gets, where a name is not known. -/
theorem feedEach_faults_redeclared :
    ∃ last outcomes fault, Verifier.feedEach {} ["int a;", "int a;", "b = 1;"] = (last, outcomes) ∧
      outcomes[1]? = some (.error fault) ∧ fault.diagnostic.line.toNat = 2 ∧
      fault.diagnostic.kind ∈ [.malformedLine, .duplicateDeclaration, .duplicateMethod, .form,
        .unbalancedBrackets] := by
  obtain ⟨fault, failed⟩ : ∃ fault,
      (Verifier.feedEach {} ["int a;", "int a;", "b = 1;"]).2[1]? = some (.error fault) :=
    ⟨⟨2, .redeclared "a" .global⟩, by decide +kernel⟩
  have stored : (Verifier.feedEach {} ["int a;"]).1.lines.size = 1 := by decide +kernel
  obtain ⟨number, kind, -⟩ := (feedEach_faults (by decide) rfl).2.1 1 fault failed
  exact ⟨_, _, fault, rfl, failed, by rw [number]; exact congrArg (· + 1) stored, kind⟩

end SJava
