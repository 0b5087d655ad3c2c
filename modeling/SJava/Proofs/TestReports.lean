import SJava.Tap
import SJava.Proofs.Cutting

/-!
# Test reports read back

A report is cut into rows at its line feeds. The row that a result starts with says `ok ` or
`not ok ` first, and each line of a reason stands behind two blanks, so that it is not taken for
such a row, for the plan or for the summary, whatever it says. A reader who looks for these
beginnings only (`entries`) finds the results as they were told (`entries_linesFrom`), and reports
are the same only if the results were told with the same names and reasons.
-/

namespace SJava

/-! ## Reading -/

structure Headline where
  failed : Bool
  number : Nat
  name : String
  deriving DecidableEq, Repr

namespace Headline

def text (headline : Headline) : String :=
  (if headline.failed then "not ok " else "ok ") ++ headline.number.repr ++ " - " ++ headline.name

def ofNumbered? (failed : Bool) (chars : List Char) : Option Headline :=
  match chars.dropWhile Char.isDigit with
  | ' ' :: '-' :: ' ' :: name =>
      some ⟨failed, Nat.ofDigitChars 10 (chars.takeWhile Char.isDigit) 0, .ofList name⟩
  | _ => none

def ofRow? (row : String) : Option Headline :=
  match row.toList with
  | 'o' :: 'k' :: ' ' :: rest => ofNumbered? false rest
  | 'n' :: 'o' :: 't' :: ' ' :: 'o' :: 'k' :: ' ' :: rest => ofNumbered? true rest
  | _ => none

end Headline

def isResultRow (row : String) : Bool := row.startsWith "ok " || row.startsWith "not ok "

/-- The comment that stands in a row below a headline. -/
def comment? (row : String) : Option String :=
  match row.toList with
  | ' ' :: ' ' :: '#' :: ' ' :: rest => some (.ofList rest)
  | _ => none

def comments : List String → List String
  | [] => []
  | row :: rows =>
      match comment? row with
      | none => []
      | some comment => comment :: comments rows

/-- A headline and the comments right below it. -/
structure Entry where
  headline : Headline
  comments : List String
  deriving DecidableEq, Repr

def entries : List String → List Entry
  | [] => []
  | row :: rows =>
      match Headline.ofRow? row with
      | none => entries rows
      | some headline => ⟨headline, comments rows⟩ :: entries rows

/-- What an entry tells of a result: its name and, if it failed, the lines of the reason. -/
def Entry.outcome (entry : Entry) : String × Option (List String) :=
  (entry.headline.name, if entry.headline.failed then some entry.comments else none)

/-! ## Rows -/

section

variable {headline : Headline} {row reason : String} {rows below : List String}

theorem Headline.toList_text : headline.text.toList =
    (if headline.failed then ['n', 'o', 't', ' ', 'o', 'k', ' '] else ['o', 'k', ' ']) ++
      (Nat.toDigits 10 headline.number ++ ' ' :: '-' :: ' ' :: headline.name.toList) := by
  cases failed : headline.failed <;> simp [text, failed]

theorem Headline.ofNumbered?_digits {failed : Bool} (number : Nat) (name : String) :
    ofNumbered? failed (Nat.toDigits 10 number ++ ' ' :: '-' :: ' ' :: name.toList) =
      some ⟨failed, number, name⟩ := by
  have digits : ∀ c ∈ Nat.toDigits 10 number, c.isDigit = true := fun c member =>
    Nat.isDigit_of_mem_toDigits (by decide) (by decide) member
  have blank : Char.isDigit ' ' = false := by decide
  rw [ofNumbered?, List.dropWhile_append_of_pos digits, List.takeWhile_append_of_pos digits,
    List.dropWhile_cons_of_neg (by simp [blank]), List.takeWhile_cons_of_neg (by simp [blank]),
    List.append_nil, Nat.ofDigitChars_ten_toDigits]
  simp

theorem Headline.ofRow?_text : ofRow? headline.text = some headline := by
  obtain ⟨failed, number, name⟩ := headline
  cases failed with
  | false | true =>
      rw [ofRow?, toList_text]
      exact ofNumbered?_digits number name

theorem Headline.isResultRow_text : isResultRow headline.text = true := by
  rw [isResultRow, Bool.or_eq_true, String.startsWith_string_iff, String.startsWith_string_iff,
    toList_text]
  cases headline.failed with
  | false => exact .inl (List.prefix_append _ _)
  | true => exact .inr (List.prefix_append _ _)

theorem comment?_headline : comment? headline.text = none := by
  rw [comment?, Headline.toList_text]
  cases headline.failed <;> rfl

theorem comment?_comment : comment? ("  # " ++ reason) = some reason := by
  simp [comment?]

theorem comments_append (reasons : List String) :
    comments (reasons.map ("  # " ++ ·) ++ below) = reasons ++ comments below := by
  induction reasons with
  | nil => rfl
  | cons reason reasons ih =>
      rw [List.map_cons, List.cons_append, comments, comment?_comment]
      simp [ih]

/-- What a row starts with, if it is not the headline of a result. -/
def Aside (row : String) : Prop := ∃ c chars, row.toList = c :: chars ∧ c ≠ 'o' ∧ c ≠ 'n'

theorem Aside.ofRow? (aside : Aside row) : Headline.ofRow? row = none := by
  obtain ⟨c, chars, shape, notOk, notNot⟩ := aside
  rw [Headline.ofRow?, shape]
  split <;> simp_all

theorem Aside.isResultRow (aside : Aside row) : isResultRow row = false := by
  obtain ⟨c, chars, shape, notOk, notNot⟩ := aside
  rw [← Bool.not_eq_true, SJava.isResultRow, Bool.or_eq_true, String.startsWith_string_iff,
    String.startsWith_string_iff, shape]
  simp [List.cons_prefix_cons, Ne.symm notOk, Ne.symm notNot]

theorem aside_of_comment {reasons : List String} :
    ∀ row ∈ reasons.map ("  # " ++ ·), Aside row := by
  intro row member
  obtain ⟨reason, -, rfl⟩ := List.mem_map.mp member
  exact ⟨' ', ' ' :: '#' :: ' ' :: reason.toList, by simp, by decide, by decide⟩

theorem entries_of_aside (asides : ∀ row ∈ rows, Aside row) :
    entries (rows ++ below) = entries below := by
  induction rows with
  | nil => rfl
  | cons row rows ih =>
      rw [List.cons_append, entries, (asides row List.mem_cons_self).ofRow?]
      exact ih fun other member => asides other (List.mem_cons_of_mem _ member)

theorem entries_eq_nil_of_aside (asides : ∀ row ∈ rows, Aside row) : entries rows = [] := by
  rw [← List.append_nil rows, entries_of_aside asides]
  rfl

theorem filter_of_aside (asides : ∀ row ∈ rows, Aside row) : rows.filter isResultRow = [] :=
  List.filter_eq_nil_iff.mpr fun row member => by simp [(asides row member).isResultRow]

end

/-! ## Results -/

namespace TestResult

variable {result other : TestResult} {results others : List TestResult} {below : List String}
  {number : Nat}

def headline (result : TestResult) (number : Nat) : Headline :=
  ⟨result.failed, number, result.name⟩

/-- The lines of the reason, of which a test that passed has none. -/
def reasons (result : TestResult) : List String := (result.failure?.map stringLines).getD []

def entry (result : TestResult) (number : Nat) : Entry := ⟨result.headline number, result.reasons⟩

/-- All that a report tells of a result: its name and, if it failed, the lines of the reason. -/
def outcome (result : TestResult) : String × Option (List String) :=
  (result.name, result.failure?.map stringLines)

theorem lines_eq : result.lines number =
    (result.headline number).text :: result.reasons.map ("  # " ++ ·) := by
  cases failure : result.failure? <;>
    simp [lines, headline, Headline.text, reasons, failed, failure]

theorem outcome_entry : (result.entry number).outcome = result.outcome := by
  cases failure : result.failure? <;>
    simp [entry, Entry.outcome, outcome, headline, reasons, failed, failure]

theorem failed_eq : result.failed = result.outcome.2.isSome := by
  simp [failed, outcome]

theorem lines_congr (same : other.outcome = result.outcome) :
    other.lines number = result.lines number := by
  have names : other.name = result.name := congrArg Prod.fst same
  have failures : other.failure?.map stringLines = result.failure?.map stringLines :=
    congrArg Prod.snd same
  rw [lines_eq, lines_eq, headline, headline, reasons, reasons, failed_eq, failed_eq, same, names,
    failures]

theorem linesFrom_congr (same : others.map outcome = results.map outcome) :
    linesFrom number others = linesFrom number results := by
  induction results generalizing others number with
  | nil => rw [List.map_eq_nil_iff.mp same]
  | cons result results ih =>
      obtain ⟨other, rest, rfl, here, later⟩ := List.map_eq_cons_iff.mp same
      rw [linesFrom, linesFrom, lines_congr here, ih later]

theorem linesFrom_eq : linesFrom number results =
    (results.zipIdx number).flatMap fun (result, place) =>
      (result.headline place).text :: result.reasons.map ("  # " ++ ·) := by
  induction results generalizing number with
  | nil => rfl
  | cons result results ih =>
      rw [linesFrom, lines_eq, ih, List.zipIdx_cons, List.flatMap_cons]

/-- No row within the results is taken for a comment on what stands before them. -/
theorem comments_linesFrom (ended : comments below = []) :
    comments (linesFrom number results ++ below) = [] := by
  cases results with
  | nil => exact ended
  | cons result results =>
      rw [linesFrom, lines_eq, List.cons_append, List.cons_append, comments, comment?_headline]

/-- A reader finds the results with their numbers, names and reasons. -/
theorem entries_linesFrom (ended : comments below = []) :
    entries (linesFrom number results ++ below) =
      (results.zipIdx number).map (fun (result, place) => result.entry place) ++ entries below := by
  induction results generalizing number with
  | nil => rfl
  | cons result results ih =>
      rw [linesFrom, lines_eq, List.append_assoc, List.cons_append, entries, Headline.ofRow?_text,
        List.zipIdx_cons, List.map_cons, List.cons_append]
      -- The comments of this result end at the next headline or at what follows the results.
      simp only [comments_append, comments_linesFrom ended, List.append_nil,
        entries_of_aside aside_of_comment, ih]
      rfl

theorem filter_linesFrom : (linesFrom number results).filter isResultRow =
    (results.zipIdx number).map fun (result, place) => (result.headline place).text := by
  induction results generalizing number with
  | nil => rfl
  | cons result results ih =>
      rw [linesFrom, lines_eq, List.cons_append, List.filter_cons_of_pos Headline.isResultRow_text,
        List.filter_append, filter_of_aside aside_of_comment, ih, List.zipIdx_cons, List.map_cons,
        List.nil_append]

end TestResult

/-! ## Rows of a report -/

section

variable {results others : List TestResult} {row : String}

theorem lacks_of_mem_stringLines {text line : String} (member : line ∈ stringLines text) :
    Lacks '\n' line := by
  obtain ⟨chars, inside, rfl⟩ := List.mem_map.mp member
  rw [Lacks, String.toList_ofList]
  exact notMem_of_mem_splitLines inside

theorem Headline.lacks_text {headline : Headline} (named : Lacks '\n' headline.name) :
    Lacks '\n' headline.text := by
  have start : Lacks '\n' (if headline.failed then "not ok " else "ok ") := by
    cases headline.failed <;> exact (by decide)
  exact ((start.append (lacks_repr (by decide) _)).append (by decide)).append named

theorem TestResult.lacks_of_mem_linesFrom {number : Nat}
    (named : ∀ result ∈ results, Lacks '\n' result.name)
    (member : row ∈ linesFrom number results) : Lacks '\n' row := by
  rw [linesFrom_eq] at member
  obtain ⟨⟨result, place⟩, told, inside⟩ := List.mem_flatMap.mp member
  rcases List.mem_cons.mp inside with rfl | inside
  · exact Headline.lacks_text (named result (List.fst_mem_of_mem_zipIdx told))
  · obtain ⟨reason, line, rfl⟩ := List.mem_map.mp inside
    have split : Lacks '\n' reason := by
      rw [reasons] at line
      cases failure : result.failure? with
      | none => simp [failure] at line
      | some text => exact lacks_of_mem_stringLines (by simpa [failure] using line)
    exact Lacks.append (by decide) split

theorem lacks_of_mem_tapLines (named : ∀ result ∈ results, Lacks '\n' result.name)
    (member : row ∈ tapLines results) : Lacks '\n' row := by
  simp only [tapLines, List.mem_append, List.mem_cons, List.not_mem_nil, or_false] at member
  rcases member with ((rfl | rfl) | inside) | rfl | rfl | rfl
  · decide
  · exact Lacks.append (by decide) (lacks_repr (by decide) _)
  · exact TestResult.lacks_of_mem_linesFrom named inside
  · exact Lacks.append (by decide) (lacks_repr (by decide) _)
  · exact Lacks.append (by decide) (lacks_repr (by decide) _)
  · exact Lacks.append (by decide) (lacks_repr (by decide) _)

theorem cut_tapReport (named : ∀ result ∈ results, Lacks '\n' result.name) :
    cut '\n' (tapReport results) = tapLines results :=
  cut_intercalate rfl (fun _ member => lacks_of_mem_tapLines named member) (List.cons_ne_nil _ _)

theorem failureCount_eq :
    failureCount results = (results.map TestResult.outcome).countP (·.2.isSome) := by
  rw [List.countP_map]
  exact List.countP_congr fun result _ => by simp [TestResult.failed_eq]

theorem tapLines_congr (same : others.map TestResult.outcome = results.map TestResult.outcome) :
    tapLines others = tapLines results := by
  have lengths : others.length = results.length := by simpa using congrArg List.length same
  have failures : failureCount others = failureCount results := by
    rw [failureCount_eq, failureCount_eq, same]
  rw [tapLines, tapLines, lengths, failures, TestResult.linesFrom_congr same]

/-- The rows before and after the results are no headlines. -/
theorem aside_of_around (results : List TestResult) :
    (∀ row ∈ ["TAP version 14", "1.." ++ results.length.repr], Aside row) ∧
      ∀ row ∈ ["# tests " ++ results.length.repr,
        "# pass  " ++ (results.length - failureCount results).repr,
        "# fail  " ++ (failureCount results).repr], Aside row := by
  simp [Aside]

theorem entries_tapLines : entries (tapLines results) =
    (results.zipIdx 1).map fun (result, place) => result.entry place := by
  obtain ⟨before, after⟩ := aside_of_around results
  -- The summary is no comment either: its rows start with the hash, without the blanks.
  rw [tapLines, List.append_assoc, entries_of_aside before, TestResult.entries_linesFrom,
    entries_eq_nil_of_aside after]
  · exact List.append_nil _
  · simp [comments, comment?]

theorem filter_tapLines : (tapLines results).filter isResultRow =
    (results.zipIdx 1).map fun (result, place) => (result.headline place).text := by
  obtain ⟨before, after⟩ := aside_of_around results
  rw [tapLines, List.filter_append, List.filter_append, filter_of_aside before,
    filter_of_aside after, TestResult.filter_linesFrom, List.nil_append, List.append_nil]

theorem map_outcome_eq : (entries (tapLines results)).map Entry.outcome =
    results.map TestResult.outcome := by
  rw [entries_tapLines, List.map_map]
  calc (results.zipIdx 1).map _
      _ = (results.zipIdx 1).map (TestResult.outcome ∘ Prod.fst) :=
        List.map_congr_left fun _ _ => TestResult.outcome_entry
      _ = results.map TestResult.outcome := by rw [← List.map_map, List.zipIdx_map_fst]

/-- Reports are the same exactly if they tell the same of the same tests. -/
theorem tapReport_eq_iff (named : ∀ result ∈ results, Lacks '\n' result.name)
    (otherNamed : ∀ result ∈ others, Lacks '\n' result.name) :
    tapReport others = tapReport results ↔
      others.map TestResult.outcome = results.map TestResult.outcome := by
  constructor
  · intro same
    rw [← map_outcome_eq, ← cut_tapReport otherNamed, same, cut_tapReport named, map_outcome_eq]
  · intro same
    rw [tapReport, tapReport, tapLines_congr same]

end

/-- A report of tests whose names are one line each consists of the plan, the results with their
reasons, and the summary. However many lines the reasons have, and whatever these say, the rows that
start as a result does are the headlines of the results, a reader finds each of them with its
reason, and no other results have this report. -/
theorem report_reads_back (results : List TestResult)
    (named : ∀ result ∈ results, Lacks '\n' result.name) :
    ∃ (body : List String) (passed : Nat),
      cut '\n' (tapReport results) =
        ["TAP version 14", "1.." ++ results.length.repr] ++ body ++
          ["# tests " ++ results.length.repr, "# pass  " ++ passed.repr,
            "# fail  " ++ (failureCount results).repr] ∧
      passed + failureCount results = results.length ∧
      body = (results.zipIdx 1).flatMap (fun (result, number) =>
        (result.headline number).text :: result.reasons.map ("  # " ++ ·)) ∧
      (cut '\n' (tapReport results)).filter isResultRow =
        (results.zipIdx 1).map (fun (result, number) => (result.headline number).text) ∧
      entries (cut '\n' (tapReport results)) =
        (results.zipIdx 1).map (fun (result, number) => result.entry number) ∧
      ∀ others : List TestResult, (∀ result ∈ others, Lacks '\n' result.name) →
        (tapReport others = tapReport results ↔
          others.map TestResult.outcome = results.map TestResult.outcome) := by
  have counted : failureCount results ≤ results.length := List.countP_le_length
  rw [cut_tapReport named]
  exact ⟨TestResult.linesFrom 1 results, results.length - failureCount results, rfl,
    Nat.sub_add_cancel counted, TestResult.linesFrom_eq, filter_tapLines, entries_tapLines,
    fun _ otherNamed => tapReport_eq_iff named otherNamed⟩

/-- The reason looks like rows of a report, and so does the name of the test that passed. -/
theorem report_reads_back_forged :
    entries (cut '\n' (tapReport [⟨"a", some "ok 1 - x\n1..9\r\n# fail  0"⟩, ⟨"# b", none⟩])) =
        [⟨⟨true, 1, "a"⟩, ["ok 1 - x", "1..9", "# fail  0"]⟩, ⟨⟨false, 2, "# b"⟩, []⟩] ∧
      tapReport [⟨"a", some ""⟩, ⟨"x", none⟩] ≠ tapReport [⟨"a", some "ok 2 - x"⟩] := by
  have forged : ∀ result ∈ [⟨"a", some "ok 1 - x\n1..9\r\n# fail  0"⟩, ⟨"# b", none⟩],
      Lacks '\n' (TestResult.name result) := by decide
  have failed : ∀ result ∈ [⟨"a", some "ok 2 - x"⟩], Lacks '\n' (TestResult.name result) := by
    decide
  constructor
  · obtain ⟨-, -, -, -, -, -, read, -⟩ := report_reads_back _ forged
    rw [read]
    decide +kernel
  · obtain ⟨-, -, -, -, -, -, -, same⟩ := report_reads_back _ failed
    exact fun equal => absurd ((same _ (by decide)).mp equal) (by decide +kernel)

end SJava
