import SJava.Proofs.Listings
import SJava.Proofs.Reading

/-!
# Commands

The commands `check` and `tokens` read a file in the same way, each with a loop of its own. What
they agree on is said by how far feeding gets (`Source.opened_cases`): a line cannot be read, a line
fails (`Verifier.pull_illegal_iff`), or all lines are taken in (`Verifier.pull_ok_iff`) and only
`check` goes on to their meaning. What they print is said by `Format.Dumps` and `Options.Reports`.
-/

namespace SJava

/-- The lines of a file up to one that fails can be read, and those before it are taken in. -/
def Source.FailsFeeding (source : Source) (fault : Fault) : Prop :=
  ∃ before text rest middle, source = before.map .ok ++ .ok text :: rest ∧
    Verifier.feedAll {} before = .ok middle ∧ (middle.feed text).2 = .error fault

namespace Verifier

variable {verifier later : Verifier} {source : Source} {fault : Fault}

theorem pull_ok_iff : verifier.pull source = .ok later ↔
    ∃ texts, source = texts.map .ok ∧ verifier.feedAll texts = .ok later := by
  constructor
  · intro pulled
    induction source generalizing verifier with
    | nil =>
        cases pulled
        exact ⟨[], rfl, rfl⟩
    | cons line source ih =>
        cases line with
        | error => cases pulled
        | ok text =>
            rw [pull] at pulled
            split at pulled
            · cases pulled
            · rename_i next fed
              obtain ⟨texts, rfl, fedAll⟩ := ih pulled
              exact ⟨text :: texts, rfl, by rw [feedAll_cons_ok fed, fedAll]⟩
  · rintro ⟨texts, rfl, fed⟩
    rw [pull_texts, fed]
    rfl

theorem pull_illegal_iff : verifier.pull source = .error (.illegal fault) ↔
    ∃ before text rest middle, source = before.map .ok ++ .ok text :: rest ∧
      verifier.feedAll before = .ok middle ∧ (middle.feed text).2 = .error fault := by
  induction source generalizing verifier with
  | nil => simp [pull]
  | cons line source ih =>
      constructor
      · intro pulled
        cases line with
        | error => cases pulled
        | ok text =>
            rw [pull] at pulled
            split at pulled
            · rename_i failed
              cases pulled
              exact ⟨[], text, source, verifier, rfl, rfl, congrArg Prod.snd failed⟩
            · rename_i next fed
              obtain ⟨before, last, rest, middle, rfl, fedAll, failed⟩ := ih.mp pulled
              exact ⟨text :: before, last, rest, middle, rfl,
                by rw [feedAll_cons_ok fed, fedAll], failed⟩
      · rintro ⟨before, text, rest, middle, shape, fed, failed⟩
        cases before with
        | nil =>
            cases shape
            cases fed
            rw [pull]
            split
            · rename_i step
              cases failed.symm.trans (congrArg Prod.snd step)
              rfl
            · rename_i step
              cases failed.symm.trans (congrArg Prod.snd step)
        | cons first before =>
            cases shape
            rw [feedAll] at fed
            split at fed
            · cases fed
            · rename_i next step
              rw [pull, step]
              exact ih.mpr ⟨before, text, rest, middle, rfl, fed, failed⟩

end Verifier

namespace Outcome

variable {options : Options} {file : String} {opened : Except String Source} {fault : Fault}

theorem ofCheck_code :
    (ofCheck options file opened).code = (Source.verifyOpened file opened).code := rfl

theorem ofCheck_valid (valid : Source.verifyOpened file opened = .valid) :
    ofCheck options file opened = { out := "0\n" } := by
  have printed : (0 : UInt32).toNat.repr ++ "\n" = "0\n" := by decide
  simp only [ofCheck, valid, Verdict.code, printed]

theorem ofCheck_invalid (invalid : Source.verifyOpened file opened = .invalid fault) :
    ofCheck options file opened =
      { out := "1\n", err := options.reportFault file fault, code := 1 } := by
  have printed : (1 : UInt32).toNat.repr ++ "\n" = "1\n" := by decide
  simp only [ofCheck, invalid, Verdict.code, printed]

end Outcome

namespace Source

variable {source : Source} {fault : Fault} {texts : List String}
  {verifier : Verifier}

theorem verifyOpened_of_failsFeeding (file : String) (fails : source.FailsFeeding fault) :
    verifyOpened file (.ok source) = .invalid fault := by
  rw [verifyOpened, verify, Verifier.pull_illegal_iff.mpr fails]
  rfl

/-- With all lines taken in, a file is wrong only by what one of them means. -/
theorem verifyOpened_of_fed (file : String) (fed : Verifier.feedAll {} texts = .ok verifier) :
    verifyOpened file (.ok (texts.map .ok)) = .valid ∨
      ∃ fault, verifyOpened file (.ok (texts.map .ok)) = .invalid fault ∧
        verifier.finish = .error fault ∧ fault.cause.kind.phase ∈ [.meaning, .nesting] ∧
        ∃ line ∈ verifier.lines, fault.line = line.number := by
  have pulled := Verifier.pull_ok_iff.mpr ⟨texts, rfl, fed⟩
  cases finished : verifier.finish with
  | ok =>
      left
      simp only [verifyOpened, verify, pulled, finished]
  | error fault =>
      have stores := Verifier.feedAll_stores Verifier.stores_start fed
      obtain ⟨line, member, number, phase⟩ := Verifier.finish_error stores finished
      refine .inr ⟨fault, ?_, rfl, phase, line, Array.mem_toList_iff.mp member, number⟩
      simp only [verifyOpened, verify, pulled, finished]

end Source

section

variable {source : Source} {options : Options} {file : String} {fault : Fault}
  {texts : List String} {verifier : Verifier}

theorem Outcome.ofTokens_of_failsFeeding (fails : source.FailsFeeding fault) :
    ofTokens options file (.ok source) = { err := options.reportFault file fault, code := 1 } := by
  simp only [ofTokens, Verifier.pull_illegal_iff.mpr fails]

theorem Outcome.ofTokens_of_fed (fed : Verifier.feedAll {} texts = .ok verifier) :
    ofTokens options file (.ok (texts.map .ok)) =
      { out := listing options.format verifier.lines.toList } := by
  simp only [ofTokens, Verifier.pull_ok_iff.mpr ⟨texts, rfl, fed⟩]

/-- How far a file can be read and fed decides what both commands do. -/
theorem Source.opened_cases (file : String) (opened : Except String Source) :
    ((∃ reason, verifyOpened file opened = .unreadable reason) ∧
      ∀ options, (Outcome.ofTokens options file opened).code = 2) ∨
    (∃ source fault, opened = .ok source ∧ source.FailsFeeding fault) ∨
    ∃ texts verifier, opened = .ok (texts.map .ok) ∧ Verifier.feedAll {} texts = .ok verifier := by
  cases opened with
  | error reason => exact .inl ⟨⟨_, rfl⟩, fun _ => rfl⟩
  | ok source =>
      cases pulled : Verifier.pull {} source with
      | ok verifier =>
          obtain ⟨texts, rfl, fed⟩ := Verifier.pull_ok_iff.mp pulled
          exact .inr (.inr ⟨texts, verifier, rfl, fed⟩)
      | error failure =>
          cases failure with
          | illegal fault =>
              exact .inr (.inl ⟨source, fault, rfl, Verifier.pull_illegal_iff.mp pulled⟩)
          | unreadable reason =>
              refine .inl ⟨⟨reason, ?_⟩, fun options => ?_⟩
              · rw [verifyOpened, verify, pulled]
                rfl
              · simp only [Outcome.ofTokens, pulled]

end

/-- The lines listed for some texts: one for each text that is not blank, numbered in order from
one. -/
structure ListedFor (texts : List String) (lines : List Line) : Prop where
  tokens : lines.map Line.tokens = (visible texts).map tokens
  numbers : lines.map Line.number =
    (List.range' 1 (visible texts).length).map UInt32.ofNat

theorem ListedFor.of_fed {texts : List String} {verifier : Verifier}
    (fed : Verifier.feedAll {} texts = .ok verifier) : ListedFor texts verifier.lines.toList := by
  obtain ⟨recorded, read⟩ := Verifier.feedAll_ok_iff.mp fed
  have count : verifier.lines.toList.length = (visible texts).length := by
    simpa [tokenLists, visible] using congrArg List.length read
  exact ⟨read, count ▸ recorded.registered.numbers⟩

theorem ListedFor.read {texts : List String} {lines : List Line} {line : Line}
    (listed : ListedFor texts lines) (member : line ∈ lines) :
    ∃ text ∈ texts, SJava.tokens text = line.tokens := by
  have among : line.tokens ∈ lines.map Line.tokens := List.mem_map_of_mem member
  rw [listed.tokens] at among
  obtain ⟨text, shown, same⟩ := List.mem_map.mp among
  exact ⟨text, List.mem_of_mem_filter shown, same⟩

/-- Both commands exit with 2 on the same files. Listing the tokens exits with 1 exactly on the
files that the check finds a fault in while feeding, and reports that fault. On all other files it
dumps the lines that are not blank, one entry or row for each, and a fault that the check finds is
of the meaning of one of them. The lines of a file's bytes have no line feeds, so that its rows are
what the dump is cut into. -/
theorem tokens_agree_with_check (files : FileAccess Id) (checkOptions tokensOptions : Options)
    (file : String) :
    let verdict := Source.verifyOpened file (files.source file)
    let checked := Command.run files checkOptions (.check file)
    let listed := Command.run files tokensOptions (.tokens file)
    (listed.code = 2 ↔ checked.code = 2) ∧
    (listed.code = 1 ↔ ∃ fault source, verdict = .invalid fault ∧
      files.source file = .ok source ∧ source.FailsFeeding fault) ∧
    (∀ fault source, verdict = .invalid fault → files.source file = .ok source →
      source.FailsFeeding fault →
        listed = { err := tokensOptions.reportFault file fault, code := 1 } ∧
        tokensOptions.Reports file fault listed.err ∧
        checked = { out := "1\n", err := checkOptions.reportFault file fault, code := 1 } ∧
        checkOptions.Reports file fault checked.err) ∧
    (listed.code ≠ 2 → listed.code ≠ 1 →
      ∃ texts verifier, files.source file = .ok (texts.map .ok) ∧
        Verifier.feedAll {} texts = .ok verifier ∧ ListedFor texts verifier.lines.toList ∧
        listed = { out := Outcome.listing tokensOptions.format verifier.lines.toList, code := 0 } ∧
        tokensOptions.format.Dumps texts verifier.lines.toList listed.out ∧
        (∀ bytes, files.source file = .ok (.ofBytes bytes) → ∀ text ∈ texts, Lacks '\n' text) ∧
        (verdict = .valid ∧ checked = { out := "0\n", code := 0 } ∨
          ∃ fault, verdict = .invalid fault ∧
            checked = { out := "1\n", err := checkOptions.reportFault file fault, code := 1 } ∧
            checkOptions.Reports file fault checked.err ∧
            verifier.finish = .error fault ∧ fault.cause.kind.phase ∈ [.meaning, .nesting] ∧
            ∃ line ∈ verifier.lines, fault.line = line.number)) := by
  intro verdict checked listed
  have read : verdict = Source.verifyOpened file (files.source file) := rfl
  have ran : checked = .ofCheck checkOptions file (files.source file) := rfl
  have ranToo : listed = .ofTokens tokensOptions file (files.source file) := rfl
  have checkedCode : checked.code = verdict.code := Outcome.ofCheck_code
  clear_value verdict checked listed
  generalize files.source file = opened at *
  rcases Source.opened_cases file opened with
    ⟨⟨reason, unread⟩, two⟩ | ⟨source, fault, rfl, fails⟩ | ⟨texts, verifier, rfl, fed⟩
  · have listedCode : listed.code = 2 := ranToo ▸ two tokensOptions
    have unreadable : verdict = .unreadable reason := read.trans unread
    rw [listedCode, checkedCode, unreadable]
    refine ⟨Iff.rfl, ⟨fun one => absurd one (by decide), ?_⟩, ?_, fun other => absurd rfl other⟩
    · rintro ⟨_, _, ⟨⟩, _⟩
    · rintro _ _ ⟨⟩
  · have invalid := Source.verifyOpened_of_failsFeeding file fails
    rw [Outcome.ofTokens_of_failsFeeding fails] at ranToo
    rw [checkedCode, read, invalid, ranToo]
    refine ⟨Iff.rfl, ⟨fun _ => ⟨fault, source, rfl, rfl, fails⟩, fun _ => rfl⟩, ?_,
      fun _ other => absurd rfl other⟩
    rintro _ _ ⟨⟩ - -
    have checkedToo := ran.trans (Outcome.ofCheck_invalid invalid)
    refine ⟨rfl, Options.reports_reportFault .., checkedToo, ?_⟩
    rw [checkedToo]
    exact Options.reports_reportFault ..
  · have unfailing (fault) : ¬ Source.FailsFeeding (texts.map .ok) fault := fun fails => by
      cases (Verifier.pull_ok_iff.mpr ⟨texts, rfl, fed⟩).symm.trans
        (Verifier.pull_illegal_iff.mpr fails)
    rw [Outcome.ofTokens_of_fed fed] at ranToo
    have listedCode : listed.code = 0 := by rw [ranToo]
    have lines := ListedFor.of_fed fed
    have dumped := Outcome.dumps_listing tokensOptions.format
      (Verifier.recorded_of_feedAll fed) fun _ => lines.read
    rw [checkedCode, listedCode, ranToo]
    refine ⟨?_, ⟨fun one => absurd one (by decide), ?_⟩, ?_,
      fun _ _ => ⟨texts, verifier, rfl, fed, lines, rfl, dumped, ?_, ?_⟩⟩
    · rcases Source.verifyOpened_of_fed file fed with valid | ⟨fault, invalid, -⟩
      · rw [read, valid]
        decide
      · rw [read, invalid, Verdict.code]
        decide
    · rintro ⟨fault, _, -, ⟨⟩, fails⟩
      exact absurd fails (unfailing fault)
    · rintro fault _ - ⟨⟩ fails
      exact absurd fails (unfailing fault)
    · intro bytes content text member
      apply Source.lacks_of_mem_ofBytes
      rw [← Except.ok.inj content]
      exact List.mem_map_of_mem member
    · rcases Source.verifyOpened_of_fed file fed with valid | ⟨fault, invalid, why⟩
      · exact .inl ⟨read.trans valid, ran.trans (Outcome.ofCheck_valid valid)⟩
      · have checkedToo := ran.trans (Outcome.ofCheck_invalid invalid)
        have told := Options.reports_reportFault checkOptions file fault
        exact .inr ⟨fault, read.trans invalid, checkedToo, checkedToo ▸ told, why⟩

/-- A file with a fault of meaning in its second line, which only the check finds, and one whose
second line has no form, which both find. -/
theorem tokens_agree_with_check_unset :
    let holding (text : String) : FileAccess Id :=
      { source := fun _ => .ok (.ofBytes text.toUTF8)
        text := fun _ => .ok text
        isThere := fun _ => true
        isDirectory := fun _ => false
        names := fun _ => [] }
    let files := holding "int a;\n\nint b = a;"
    let others := holding "int a;\nint b"
    let told := { quiet := true, format := .json : Options }
    let rows := ["   1  var_declaration       global                  int var_name(a) semicolon",
      "   2  var_declaration       global                  " ++
        "int var_name(b) equals var_name(a) semicolon"]
    ((Command.run files {} (.check "a")).code = 1 ∧
      (Command.run files {} (.tokens "a")).code = 0 ∧
      cut '\n' (Command.run files {} (.tokens "a")).out = rows ++ [""] ∧
      ∃ lines : List Line, lines.map Line.number = [1, 2] ∧
        List.Forall₂ Line.WrittenAs lines rows ∧
        Json.ofText? (Command.run files told (.tokens "a")).out =
          some (.array (lines.map Line.entry))) ∧
    (Command.run others {} (.tokens "b")).err =
      "syntax error: line 2: line must end with ';', found variable name\n" ∧
    Json.ofText? (Command.run others told (.tokens "b")).err =
      some (.object [("file", .string "b"), ("kind", .string "syntax"), ("line", .ofNumber 2),
        ("message", .string "line must end with ';', found variable name"),
        ("phase", .string "syntax")]) := by
  intro holding files others told rows
  have opened : Source.ofBytes "int a;\n\nint b = a;".toUTF8 =
      ["int a;", "", "int b = a;"].map .ok := by
    decide +kernel
  have clean : (Command.run files {} (.tokens "a")).code = 0 := by decide +kernel
  have cleanToo : (Command.run files told (.tokens "a")).code = 0 := by decide +kernel
  have shown : cut '\n' (Command.run files {} (.tokens "a")).out = rows ++ [""] := by
    decide +kernel
  have failed : (Command.run others {} (.tokens "b")).code = 1 := by decide +kernel
  have failedToo : (Command.run others told (.tokens "b")).code = 1 := by decide +kernel
  have refused : Source.verifyOpened "b" (others.source "b") =
      .invalid ⟨2, .badEnd .semicolon (some .variableName)⟩ := by
    decide +kernel
  obtain ⟨-, -, -, dumps⟩ := tokens_agree_with_check files {} {} "a"
  obtain ⟨texts, verifier, source, fed, lines, -, ⟨found, written, -, pieces⟩, unended, -⟩ :=
    dumps (by rw [clean]; decide) (by rw [clean]; decide)
  obtain ⟨-, -, -, dumpsToo⟩ := tokens_agree_with_check files {} told "a"
  obtain ⟨textsToo, verifierToo, sourceToo, fedToo, -, -, dumped, -⟩ :=
    dumpsToo (by rw [cleanToo]; decide) (by rw [cleanToo]; decide)
  -- Both runs read the same lines.
  have injective : Function.Injective (List.map (.ok : String → Except String String)) :=
    List.map_injective_iff.mpr fun _ _ => Except.ok.inj
  obtain rfl := injective (opened.symm.trans (Except.ok.inj source))
  obtain rfl := injective (opened.symm.trans (Except.ok.inj sourceToo))
  obtain rfl := Except.ok.inj (fed.symm.trans fedToo)
  have same : found = rows := List.append_cancel_right ((pieces (unended _ rfl)).symm.trans shown)
  obtain ⟨-, one, reported, -⟩ := tokens_agree_with_check others {} {} "b"
  obtain ⟨fault, source, invalid, opened, fails⟩ := one.mp failed
  obtain ⟨-, phrase, -⟩ := reported fault source invalid opened fails
  obtain ⟨-, oneToo, reportedToo, -⟩ := tokens_agree_with_check others {} told "b"
  obtain ⟨faultToo, sourceToo, invalidToo, openedToo, failsToo⟩ := oneToo.mp failedToo
  obtain ⟨-, entry, -⟩ := reportedToo faultToo sourceToo invalidToo openedToo failsToo
  obtain rfl := Verdict.invalid.inj (refused.symm.trans invalid)
  obtain rfl := Verdict.invalid.inj (refused.symm.trans invalidToo)
  refine ⟨⟨by decide +kernel, clean, shown, verifier.lines.toList, ?_, same ▸ written, dumped⟩,
    phrase, entry⟩
  rw [lines.numbers]
  decide +kernel

end SJava
