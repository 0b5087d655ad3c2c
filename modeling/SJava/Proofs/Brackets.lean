import SJava.Proofs.Balance
import SJava.Proofs.Redeclaration
import SJava.Proofs.Registration

/-!
# Matching brackets

Which bracket closes a block is a matter of counting: it is the first one up to which as many
brackets are closed as opened, counted from the line that opens the block (`Closes`). The verifier
does not count but keeps the blocks that are open. As long as the count does not come back to zero
the block and those around it stay open (`openBlocks_kept`), and when it does, exactly those around
it are left (`Closes.openBlocks_closed`). So the scope on the bracket is the one on the opening
line, and the scopes in between lie below that of the block (`Recorded.scopes_of_closes`).
-/

namespace SJava

def stretch (lines : List Line) (first last : Nat) : List Line := (lines.take last).drop first

/-- The line at one place closes the block that the line at another opens: counted from the opening
line, it is the first up to which as many brackets are closed as opened. -/
structure Closes (lines : List Line) (opener closer : Nat) : Prop where
  opens : lines[opener]?.any (·.kind.opens) = true
  after : opener < closer
  inside : ∀ last ≤ closer, opener < last →
    closers (stretch lines opener last) < openers (stretch lines opener last)
  balanced :
    closers (stretch lines opener (closer + 1)) = openers (stretch lines opener (closer + 1))

instance (lines : List Line) (opener closer : Nat) : Decidable (Closes lines opener closer) :=
  decidable_of_iff
    (lines[opener]?.any (·.kind.opens) = true ∧ opener < closer ∧
      (∀ last ≤ closer, opener < last →
        closers (stretch lines opener last) < openers (stretch lines opener last)) ∧
      closers (stretch lines opener (closer + 1)) = openers (stretch lines opener (closer + 1)))
    ⟨fun ⟨opens, after, inside, balanced⟩ => ⟨opens, after, inside, balanced⟩,
      fun ⟨opens, after, inside, balanced⟩ => ⟨opens, after, inside, balanced⟩⟩

/-! ## Open blocks -/

section

variable {lines : List Line} {line : Line} {opened outer : List Nat}
  {block place first last opener closer : Nat}

theorem openBlocks_take_succ (found : lines[place]? = some line) :
    openBlocks (lines.take (place + 1)) =
      blocksAfter (openBlocks (lines.take place)) place line := by
  have inside : place < lines.length := (List.getElem?_eq_some_iff.mp found).1
  rw [List.take_add_one, found, Option.toList_some, openBlocks_append, List.length_take,
    Nat.min_eq_left (Nat.le_of_lt inside)]

theorem suffix_blocksAfter (suffix : outer <:+ opened)
    (long : outer.length ≤ (blocksAfter opened place line).length) :
    outer <:+ blocksAfter opened place line := by
  unfold blocksAfter at long ⊢
  split
  · exact suffix.trans (List.suffix_cons _ _)
  · rename_i opens
    rw [if_neg opens] at long
    split
    · rename_i closing
      rw [if_pos closing] at long
      exact List.suffix_of_suffix_length_le suffix (List.tail_suffix _) long
    · exact suffix

/-- Blocks stay open as long as there are no fewer. -/
theorem openBlocks_kept (suffix : outer <:+ openBlocks (lines.take first)) (order : first ≤ last)
    (long : ∀ middle ≤ last, first ≤ middle →
      outer.length ≤ (openBlocks (lines.take middle)).length) :
    outer <:+ openBlocks (lines.take last) := by
  induction last, order using Nat.le_induction with
  | base => exact suffix
  | succ last order ih =>
      have before := ih fun middle upTo => long middle (by omega)
      have here := long (last + 1) le_rfl (by omega)
      cases found : lines[last]? with
      | none => rwa [List.take_add_one, found, Option.toList_none, List.append_nil]
      | some line =>
          rw [openBlocks_take_succ found] at here ⊢
          exact suffix_blocksAfter before here

/-- A block that is open has been so since the line that opened it. -/
theorem openBlocks_since (suffix : (block :: outer) <:+ openBlocks lines) (after : block < last) :
    (block :: outer) <:+ openBlocks (lines.take last) := by
  induction lines using List.reverseRecOn with
  | nil => simp [openBlocks] at suffix
  | append_singleton lines line ih =>
      rcases Nat.lt_or_ge lines.length last with beyond | upTo
      · rwa [List.take_of_length_le (by rw [List.length_append]; exact beyond)]
      · rw [List.take_append_of_le_length upTo]
        apply ih
        rw [openBlocks_append, blocksAfter] at suffix
        -- Of the last line's effect only a new block could be the one in question.
        split at suffix
        · rcases List.suffix_cons_iff.mp suffix with same | suffix
          · have opensHere : block = lines.length := (List.cons.inj same).1
            omega
          · exact suffix
        · split at suffix
          · exact suffix.trans (List.tail_suffix _)
          · exact suffix

theorem take_append_stretch (order : first ≤ last) :
    lines.take first ++ stretch lines first last = lines.take last := by
  have front : lines.take first = (lines.take last).take first := by
    rw [List.take_take, Nat.min_eq_left order]
  rw [stretch, front, List.take_append_drop]

end

/-! ## Counting brackets -/

namespace Recorded

variable {registry : Registry} {lines : List Line} {line : Line} {first last opener closer : Nat}

theorem take (h : Recorded registry lines) (count : Nat) :
    ∃ earlier, Recorded earlier (lines.take count) := by
  rcases Nat.lt_or_ge count lines.length with inside | beyond
  · obtain ⟨earlier, -, recorded, -, -⟩ := h.split (List.getElem?_eq_getElem inside)
    exact ⟨earlier, recorded⟩
  · rw [List.take_of_length_le beyond]
    exact ⟨registry, h⟩

theorem length_openBlocks (h : Recorded registry lines) :
    (openBlocks lines).length + closers lines = openers lines := by
  have depth := h.depth
  rwa [Scope.depth, h.path, List.length_map] at depth

/-- The number of open blocks follows the brackets of any stretch of lines. -/
theorem length_stretch (h : Recorded registry lines) (order : first ≤ last) :
    (openBlocks (lines.take last)).length + closers (stretch lines first last) =
      (openBlocks (lines.take first)).length + openers (stretch lines first last) := by
  obtain ⟨_, recordedFirst⟩ := h.take first
  obtain ⟨_, recordedLast⟩ := h.take last
  have atFirst := recordedFirst.length_openBlocks
  have atLast := recordedLast.length_openBlocks
  rw [← take_append_stretch order] at atLast
  have closed : closers (lines.take first ++ stretch lines first last) =
      closers (lines.take first) + closers (stretch lines first last) := List.countP_append
  have opened : openers (lines.take first ++ stretch lines first last) =
      openers (lines.take first) + openers (stretch lines first last) := List.countP_append
  rw [take_append_stretch order] at atLast closed opened
  omega

end Recorded

namespace Closes

variable {registry : Registry} {lines : List Line} {last opener closer : Nat}

theorem opening (closes : Closes lines opener closer) :
    ∃ line, lines[opener]? = some line ∧ line.kind.opens = true := by
  simpa [Option.any_eq_true] using closes.opens

theorem openBlocks_opened (closes : Closes lines opener closer) :
    openBlocks (lines.take (opener + 1)) = opener :: openBlocks (lines.take opener) := by
  obtain ⟨line, found, opens⟩ := closes.opening
  rw [openBlocks_take_succ found, blocksAfter, if_pos opens]

variable (h : Recorded registry lines) (closes : Closes lines opener closer)

include h closes

theorem length_inside (after : opener < last) (upTo : last ≤ closer) :
    (openBlocks (lines.take opener)).length < (openBlocks (lines.take last)).length := by
  have count := h.length_stretch (Nat.le_of_lt after)
  have more := closes.inside last upTo after
  omega

theorem length_closed :
    (openBlocks (lines.take (closer + 1))).length = (openBlocks (lines.take opener)).length := by
  have after := closes.after
  have count := h.length_stretch (show opener ≤ closer + 1 by omega)
  have balanced := closes.balanced
  omega

/-- Up to the bracket that closes a block, the block is open. -/
theorem openBlocks_inside (after : opener < last) (upTo : last ≤ closer) :
    (opener :: openBlocks (lines.take opener)) <:+ openBlocks (lines.take last) := by
  have opened : (opener :: openBlocks (lines.take opener)) <:+
      openBlocks (lines.take (opener + 1)) := by
    rw [closes.openBlocks_opened]
  apply openBlocks_kept opened after
  intro middle below above
  rw [List.length_cons]
  exact closes.length_inside h above (by omega)

/-- After the bracket that closes a block, the blocks around it are open. -/
theorem openBlocks_closed :
    openBlocks (lines.take (closer + 1)) = openBlocks (lines.take opener) := by
  have after := closes.after
  have kept : openBlocks (lines.take opener) <:+ openBlocks (lines.take (closer + 1)) := by
    apply openBlocks_kept (List.suffix_refl _) (by omega)
    intro middle below above
    -- The block itself is open up to the bracket, so that only there the count comes back.
    rcases Nat.lt_or_ge closer middle with beyond | upTo
    · rw [show middle = closer + 1 by omega, closes.length_closed h]
    · rcases Nat.eq_or_lt_of_le above with rfl | above
      · exact le_rfl
      · exact Nat.le_of_lt (closes.length_inside h above upTo)
  exact (kept.eq_of_length (closes.length_closed h).symm).symm

theorem closing : ∃ line, lines[closer]? = some line ∧ line.kind = .closingBracket := by
  have fewer : (openBlocks (lines.take (closer + 1))).length <
      (openBlocks (lines.take closer)).length := by
    rw [closes.length_closed h]
    exact closes.length_inside h closes.after le_rfl
  cases found : lines[closer]? with
  | none =>
      rw [List.take_add_one, found, Option.toList_none, List.append_nil] at fewer
      omega
  | some line =>
      refine ⟨line, rfl, ?_⟩
      rw [openBlocks_take_succ found, blocksAfter] at fewer
      split at fewer
      · rw [List.length_cons] at fewer
        omega
      · split at fewer
        · assumption
        · omega

end Closes

/-! ## Scopes -/

namespace Recorded

variable {registry : Registry} {lines : List Line} {line : Line} {opener closer : Nat}

theorem scopes_of_closes (h : Recorded registry lines) (closes : Closes lines opener closer) :
    ∃ first last, lines[opener]? = some first ∧ lines[closer]? = some last ∧
      last.kind = .closingBracket ∧ last.scope = first.scope ∧
      ∀ place line, opener < place → place < closer → lines[place]? = some line →
        (first.scope.child (segmentAt lines opener)).encloses line.scope = true := by
  obtain ⟨first, foundFirst, opens⟩ := closes.opening
  obtain ⟨last, foundLast, closing⟩ := closes.closing h
  have around : first.scope.path = (openBlocks (lines.take opener)).map (segmentAt lines) := by
    rw [h.path_at foundFirst, blocksAround, foundFirst, Option.any_some, if_pos opens]
  refine ⟨first, last, foundFirst, foundLast, closing, ?_, ?_⟩
  · have path := h.path_at foundLast
    rw [blocksAround, foundLast, Option.any_some, closing, if_neg (by decide),
      closes.openBlocks_closed h, ← around] at path
    exact congrArg Scope.mk path
  · intro place line after before found
    have inside : (opener :: openBlocks (lines.take opener)) <:+ blocksAround lines place := by
      rw [blocksAround]
      split
      · exact closes.openBlocks_inside h after (Nat.le_of_lt before)
      · exact closes.openBlocks_inside h (Nat.lt_succ_of_lt after) before
    have paths := inside.map (segmentAt lines)
    rw [List.map_cons, ← around, ← h.path_at found] at paths
    exact List.isSuffixOf_iff_suffix.mpr paths

theorem closes_of_closing (h : Recorded registry lines) (found : lines[closer]? = some line)
    (kind : line.kind = .closingBracket) : ∃ opener, Closes lines opener closer := by
  obtain ⟨before, _, recorded, takes, -⟩ := h.split found
  obtain ⟨segment, inner⟩ := takes.of_closing kind
  have path := recorded.path
  rw [inner, Scope.child] at path
  obtain ⟨opener, outer, opened, -, -⟩ := List.map_eq_cons_iff.mp path.symm
  have suffix : (opener :: outer) <:+ openBlocks (lines.take closer) := by rw [opened]
  have after : opener < closer := by
    have inside := openBlocks_lt (suffix.subset List.mem_cons_self)
    rw [List.length_take] at inside
    omega
  have around : outer = openBlocks (lines.take opener) := by
    rw [openBlocks_outer suffix, List.take_take, Nat.min_eq_left (Nat.le_of_lt after)]
  obtain ⟨first, foundFirst, opens⟩ := openBlocks_opens (suffix.subset List.mem_cons_self)
  rw [List.getElem?_take_of_lt after] at foundFirst
  refine ⟨opener, ?_, after, ?_, ?_⟩
  · rw [foundFirst, Option.any_some, opens]
  · intro last upTo beyond
    have since := (openBlocks_since suffix beyond).length_le
    rw [List.take_take, Nat.min_eq_left upTo, List.length_cons, around] at since
    have count := h.length_stretch (Nat.le_of_lt beyond)
    omega
  · have closed : openBlocks (lines.take (closer + 1)) = outer := by
      rw [openBlocks_take_succ found, blocksAfter, kind, opened]
      rfl
    have count := h.length_stretch (show opener ≤ closer + 1 by omega)
    rw [closed, ← around] at count
    omega

end Recorded

/-! ## Unbalanced brackets -/

theorem Registry.failsWith_unbalanced_iff {registry : Registry} {raw : Line} :
    registry.FailsWith raw .unbalancedBrackets ↔
      raw.kind = .closingBracket ∧ registry.scope.depth = 0 := by
  have declares {outcome : Except Cause Line} (failsIn : FailsIn [.declarations] outcome) :
      ¬∃ cause, outcome = .error cause ∧ cause.kind = .unbalancedBrackets := by
    rintro ⟨cause, failed, kind⟩
    have phase := failsIn cause failed
    rw [kind] at phase
    exact absurd phase (by decide)
  unfold FailsWith register
  cases kind : raw.kind with
  | declaration | finalDeclaration => simpa using declares declareVariables_failsIn
  | methodHeader => simpa using declares declareMethod_failsIn
  | closingBracket =>
      cases scope : registry.scope with
      | mk path => cases path <;> simp [Scope.pop?, Scope.depth, Cause.kind]
  | _ => simp

theorem LineKind.closes_iff_of_begins {kind : LineKind} {first : TokenKind}
    (start : kind.begins first = true) : kind = .closingBracket ↔ first = .rightBrace := by
  rw [← LineKind.ofFirst?_eq_some] at start
  cases first <;> cases start <;> decide

theorem Line.ofTokens_error {number : UInt32} {tokens : List Token} {cause : Cause}
    (refused : Line.ofTokens number tokens = .error cause) :
    cause.kind = .malformedLine ∧ ∀ first ∈ tokens.head?, LineKind.ofFirst? first.kind = none := by
  unfold Line.ofTokens at refused
  split at refused
  · cases refused
    exact ⟨rfl, nofun⟩
  · split at refused
    · rename_i unknown
      cases refused
      exact ⟨rfl, by simpa using unknown⟩
    · cases refused

namespace Verifier

variable {verifier : Verifier} {text : String} {raw : Line}

/-- Where the fault is not one of form, it is the one that the registry finds. -/
theorem failsWith_of_made {kind : FaultKind}
    (made : Line.ofTokens verifier.nextNumber (tokens text) = .ok raw) (unformed : kind ≠ .form) :
    verifier.FailsWith text kind ↔ verifier.registry.FailsWith raw kind := by
  rw [FailsWith, Registry.FailsWith, feed, not_isBlank_of_ofTokens made]
  simp only [Bool.false_eq_true, if_false]
  have entered : verifier.registry.enter verifier.nextNumber text =
      verifier.registry.register raw := by
    rw [Registry.enter, made]
  cases registered : verifier.registry.register raw with
  | mk next outcome =>
      rw [registered] at entered
      rw [entered]
      cases outcome with
      | error cause => simp [Fault.diagnostic]
      | ok line =>
          cases form : line.checkForm with
          | ok => simp [form, Line.located, Except.mapError]
          | error cause =>
              obtain ⟨-, -, first, rest, shape, start⟩ := Registry.enter_begun entered
              have isForm : cause.kind = .form := (Line.checkForm_error shape start form).1
              simp [form, Line.located, Except.mapError, Line.fault, Fault.diagnostic, isForm,
                unformed.symm]

/-- Feeding fails for a bracket exactly if a closing bracket begins the line at top level, whatever
comes after it. -/
theorem failsWith_unbalanced_iff :
    verifier.FailsWith text .unbalancedBrackets ↔
      (tokens text).head?.map Token.kind = some .rightBrace ∧
        verifier.registry.scope.depth = 0 := by
  cases made : Line.ofTokens verifier.nextNumber (tokens text) with
  | ok raw =>
      obtain ⟨first, rest, cut, start, -⟩ := Line.ofTokens_ok made
      rw [failsWith_of_made made (by decide), Registry.failsWith_unbalanced_iff,
        LineKind.closes_iff_of_begins start, cut, List.head?_cons, Option.map_some,
        Option.some_inj]
  | error cause =>
      obtain ⟨malformed, unknown⟩ := Line.ofTokens_error made
      refine iff_of_false ?_ ?_
      · rintro ⟨fault, failed, kind⟩
        unfold feed at failed
        split at failed
        · cases failed
        · rw [Registry.enter, made] at failed
          cases failed
          cases malformed.symm.trans kind
      · rintro ⟨bracket, -⟩
        obtain ⟨first, isFirst, kind⟩ := Option.map_eq_some_iff.mp bracket
        have unnamed := unknown first isFirst
        rw [kind] at unnamed
        cases unnamed

end Verifier

/-! ## Rounds -/

/-- The bracket that closes a block has the scope of the line that opened it, and the lines in
between have scopes within the block. Every closing bracket closes a block. At all times the depth
is the number of blocks opened less those closed, and feeding fails for a bracket exactly at a
closing bracket that comes at depth zero. -/
theorem scopes_return {texts : List String} {verifier : Verifier}
    (fed : Verifier.feedAll {} texts = .ok verifier) :
    (∀ opener closer, Closes verifier.lines.toList opener closer →
      ∃ first last, verifier.lines[opener]? = some first ∧ verifier.lines[closer]? = some last ∧
        last.kind = .closingBracket ∧ last.scope = first.scope ∧
        ∀ place line, opener < place → place < closer → verifier.lines[place]? = some line →
          (first.scope.child (segmentAt verifier.lines.toList opener)).encloses line.scope =
            true) ∧
    (∀ closer last, verifier.lines[closer]? = some last → last.kind = .closingBracket →
      ∃ opener, Closes verifier.lines.toList opener closer) ∧
    (∀ before after, texts = before ++ after →
      ∃ middle, Verifier.feedAll {} before = .ok middle ∧
        middle.lines.toList <+: verifier.lines.toList ∧
        middle.registry.scope.depth + closers middle.lines.toList =
          openers middle.lines.toList) ∧
    ∀ text, verifier.FailsWith text .unbalancedBrackets ↔
      (tokens text).head?.map Token.kind = some .rightBrace ∧
        verifier.registry.scope.depth = 0 := by
  have recorded := Verifier.recorded_of_feedAll fed
  refine ⟨fun opener closer closes => ?_, fun closer last found closing => ?_,
    fun before after split => ?_, fun text => Verifier.failsWith_unbalanced_iff⟩
  · simpa only [Array.getElem?_toList] using recorded.scopes_of_closes closes
  · rw [← Array.getElem?_toList] at found
    exact recorded.closes_of_closing found closing
  · rw [split] at fed
    obtain ⟨middle, fedBefore, fedAfter⟩ := Verifier.feedAll_append_ok_iff.mp fed
    obtain ⟨new, grown, -⟩ := Verifier.feedAll_grown fedAfter
    exact ⟨middle, fedBefore, ⟨new, grown.symm⟩, (Verifier.recorded_of_feedAll fedBefore).depth⟩

/-- The third bracket closes the `while` block, around an `if` block that is closed before it. A
further bracket then fails. -/
theorem scopes_return_nested :
    ∃ verifier first last inner, Verifier.feedAll {} ["void f() \x7b", "while (true) \x7b",
        "if (false) \x7b", "\x7d", "\x7d", "return;", "\x7d"] = .ok verifier ∧
      Closes verifier.lines.toList 1 4 ∧ verifier.lines[1]? = some first ∧
      verifier.lines[4]? = some last ∧ verifier.lines[3]? = some inner ∧
      last.scope = first.scope ∧
      (first.scope.child (.whileBlock 1)).encloses inner.scope = true ∧
      verifier.FailsWith "\x7d" .unbalancedBrackets := by
  have evaluated : (Verifier.feedAll {} ["void f() \x7b", "while (true) \x7b", "if (false) \x7b",
      "\x7d", "\x7d", "return;", "\x7d"]).toOption.any (fun verifier =>
        decide (Closes verifier.lines.toList 1 4) && verifier.lines[3]?.isSome &&
          segmentAt verifier.lines.toList 1 == .whileBlock 1 &&
          verifier.registry.scope.depth == 0) = true := by
    decide +kernel
  obtain ⟨verifier, fed, test⟩ := ok_of_any evaluated
  simp only [Bool.and_eq_true, decide_eq_true_eq, beq_iff_eq] at test
  obtain ⟨⟨⟨closes, stored⟩, segment⟩, top⟩ := test
  obtain ⟨inner, found⟩ := Option.isSome_iff_exists.mp stored
  obtain ⟨rounds, -, -, fails⟩ := scopes_return fed
  obtain ⟨first, last, foundFirst, foundLast, -, same, within⟩ := rounds 1 4 closes
  have enclosed := within 3 inner (by decide) (by decide) found
  rw [segment] at enclosed
  have bracket : (tokens "\x7d").head?.map Token.kind = some .rightBrace := by decide +kernel
  exact ⟨verifier, first, last, inner, fed, closes, foundFirst, foundLast, found, same, enclosed,
    (fails "\x7d").mpr ⟨bracket, top⟩⟩

end SJava
