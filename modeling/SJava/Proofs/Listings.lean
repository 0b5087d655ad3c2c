import SJava.Command
import SJava.Proofs.Columns
import SJava.Proofs.JsonText

/-!
# Listings and reports

What the commands print about lines and about a fault. A listing in JSON is read back as an array
with one entry for each line (`Line.readable_json`). A listing in text has a row for each line, and
cutting it at its line feeds gives the rows back, as none of them has a line feed in it
(`Line.lacks_row`): names are parts of the texts that they were read from. A fault is told with its
phase, its line and its message.
-/

namespace SJava

/-! ## Entries -/

theorem Json.readable_ofNumber {depth : Nat} (n : UInt32) :
    Readable depth (ofNumber n) (ofNumber n) :=
  readable_integer (n.toNat_lt.trans (by decide))

theorem Token.readable_json {depth : Nat} (token : Token) :
    Json.Readable (depth + 1) token.json token.json := by
  apply Json.readable_object_self
  · cases token.name? with
    | none => exact List.pairwise_singleton _ _
    | some name =>
        show List.Pairwise (· < ·) ["kind", "name"]
        decide
  · cases token.name? <;> simp [Json.readable_string]

/-- The entry of a line in a listing, with its fields in the order of their keys. -/
def Line.entry (line : Line) : Json :=
  .object [("kind", .string line.kind.label), ("number", .ofNumber line.number),
    ("scope", .string line.scope.text), ("tokens", .array (line.tokens.map Token.json))]

theorem Line.readable_json {depth : Nat} (line : Line) :
    Json.Readable (depth + 3) line.json line.entry := by
  have tokens : Json.Readable (depth + 2) (.array (line.tokens.map Token.json))
      (.array (line.tokens.map Token.json)) := by
    apply Json.readable_array
    rw [List.forall₂_same]
    intro entry member
    obtain ⟨token, -, rfl⟩ := List.mem_map.mp member
    exact token.readable_json
  have first : Json.insertField "kind" (.string line.kind.label)
      [("number", .ofNumber line.number)] =
        [("kind", .string line.kind.label), ("number", .ofNumber line.number)] :=
    if_pos (by decide)
  have order : Json.sorted [] [("number", .ofNumber line.number),
      ("kind", .string line.kind.label), ("scope", .string line.scope.text),
      ("tokens", .array (line.tokens.map Token.json))] =
        [("kind", .string line.kind.label), ("number", .ofNumber line.number),
          ("scope", .string line.scope.text), ("tokens", .array (line.tokens.map Token.json))] := by
    show Json.sorted (Json.insertField "kind" _ [("number", _)]) [("scope", _), ("tokens", _)] = _
    rw [first]
    apply Json.sorted_of_ordered
    show List.Pairwise (· < ·) ["kind", "number", "scope", "tokens"]
    decide
  rw [entry, ← order]
  apply Json.readable_object
  exact .cons ⟨rfl, Json.readable_ofNumber _⟩ (.cons ⟨rfl, Json.readable_string _⟩
    (.cons ⟨rfl, Json.readable_string _⟩ (.cons ⟨rfl, tokens⟩ .nil)))

/-- The diagnostic of a fault as it is told in JSON. -/
def Fault.entry (fault : Fault) (file : String) : Json :=
  .object [("file", .string file), ("kind", .string fault.cause.kind.label),
    ("line", .ofNumber fault.line), ("message", .string fault.cause.message),
    ("phase", .string fault.cause.kind.phase.label)]

theorem Fault.readable_entry {depth : Nat} (fault : Fault) (file : String) :
    Json.Readable (depth + 1) (fault.diagnostic.jsonFor file) (fault.entry file) := by
  show Json.Readable _ (fault.entry file) (fault.entry file)
  apply Json.readable_object_self
  · show List.Pairwise (· < ·) ["file", "kind", "line", "message", "phase"]
    decide
  · simp [Json.readable_string, Json.readable_ofNumber]

/-! ## Rows -/

/-- A row that a line is written as, its number first. -/
def Line.WrittenAs (line : Line) (row : String) : Prop :=
  ∃ indent gap space : Nat, 0 < gap ∧
    row = blanks indent ++ line.number.toNat.repr ++ "  " ++ line.kind.label ++ blanks gap ++
      line.scope.text ++ blanks space ++ " ".intercalate (line.tokens.map Token.text)

theorem Line.writtenAs_row (line : Line) : line.WrittenAs line.row :=
  ⟨_, _, _, Nat.sub_pos_of_lt line.kind.label_length_lt, row_eq⟩

section

variable {mark : Char}

/-- Names are parts of the texts that they are read from. -/
theorem lacks_name_of_lacks {text : String} {token : Token} (lacking : Lacks mark text)
    (member : token ∈ tokens text) : Lacks mark token.name := by
  obtain ⟨piece, cut, read⟩ := List.mem_filterMap.mp member
  have absent : mark ∉ piece.text := by
    intro inside
    apply lacking
    rw [← flatten_lexemes text.toList]
    exact List.mem_flatten.mpr ⟨_, List.mem_map_of_mem cut, inside⟩
  have spelled := (tokenization_lexemes text.toList).spelled piece cut
  cases Lexeme.reads_of_token? spelled read with
  | variableName =>
      rwa [Lacks, Token.name, Option.getD_some, String.toList_ofList]
  | beforeBlank | beforeParen =>
      rw [Lacks, Token.name, Option.getD_some, String.toList_ofList]
      exact fun found => absent (List.mem_append_left _ found)
  | unnamed => exact List.not_mem_nil

theorem lacks_blanks (other : mark ≠ ' ') (n : Nat) : Lacks mark (blanks n) := by
  rw [Lacks, blanks, String.toList_ofList]
  exact fun found => other (List.eq_of_mem_replicate found)

theorem Token.lacks_text {token : Token} (lacking : Lacks '\n' token.name) :
    Lacks '\n' token.text := by
  have label : Lacks '\n' token.kind.label := by
    cases token.kind <;> decide
  cases named : token.name? with
  | none => rwa [text_of_unnamed named]
  | some name =>
      rw [Token.name, named, Option.getD_some] at lacking
      rw [text_of_named named]
      exact ((label.append (by decide)).append lacking).append (by decide)

theorem Line.lacks_row {line : Line} (scope : Lacks '\n' line.scope.text)
    (names : ∀ token ∈ line.tokens, Lacks '\n' token.name) : Lacks '\n' line.row := by
  have kind : Lacks '\n' line.kind.label := by
    cases line.kind <;> decide
  have tokens : Lacks '\n' (" ".intercalate (line.tokens.map Token.text)) := by
    apply lacks_intercalate (by decide)
    intro text member
    obtain ⟨token, inside, rfl⟩ := List.mem_map.mp member
    exact Token.lacks_text (names token inside)
  have spaces (n : Nat) : Lacks '\n' (blanks n) := lacks_blanks (by decide) n
  rw [row_eq]
  exact (((((((spaces _).append (lacks_repr rfl _)).append (by decide)).append kind).append
    (spaces _)).append scope).append (spaces _)).append tokens

end

/-! ## Commands -/

/-- What is printed for lines: in JSON one entry for each, and in text one row for each, ended by a
line feed and without another one if the lines were read from texts that have none. -/
def Format.Dumps (format : Format) (texts : List String) (lines : List Line) (out : String) :
    Prop :=
  match format with
  | .json => Json.ofText? out = some (.array (lines.map Line.entry))
  | .text => ∃ rows, List.Forall₂ Line.WrittenAs lines rows ∧ out = .join (rows.map (· ++ "\n")) ∧
      ((∀ text ∈ texts, Lacks '\n' text) → cut '\n' out = rows ++ [""])

/-- What is printed for a fault: in JSON its entry, and in text its phase, line and message, unless
it has to be quiet. -/
def Options.Reports (options : Options) (file : String) (fault : Fault) (err : String) : Prop :=
  match options.format with
  | .json => Json.ofText? err = some (fault.entry file)
  | .text => err = if options.quiet then "" else fault.cause.kind.phase.label ++ " error: line " ++
      fault.line.toNat.repr ++ ": " ++ fault.cause.message ++ "\n"

theorem Options.reports_reportFault (options : Options) (file : String) (fault : Fault) :
    options.Reports file fault (options.reportFault file fault) := by
  rw [Reports, reportFault]
  cases options.format with
  | json => exact Json.ofText?_pretty (fault.readable_entry file) 0
  | text =>
      have phrase : fault.diagnostic.phrase ++ "\n" = fault.cause.kind.phase.label ++
          " error: line " ++ fault.line.toNat.repr ++ ": " ++ fault.cause.message ++ "\n" := by
        rw [← String.toList_inj]
        simp [Diagnostic.phrase, Diagnostic.text, Diagnostic.phase, Fault.diagnostic]
      simp only [phrase]

theorem Outcome.dumps_listing {texts : List String} {registry : Registry} {lines : List Line}
    (format : Format) (recorded : Recorded registry lines)
    (read : ∀ line ∈ lines, ∃ text ∈ texts, tokens text = line.tokens) :
    format.Dumps texts lines (listing format lines) := by
  cases format with
  | json =>
      refine Json.ofText?_pretty (Json.readable_array ?_) 0
      rw [List.forall₂_map_left_iff, List.forall₂_map_right_iff, List.forall₂_same]
      exact fun line _ => line.readable_json
  | text =>
      refine ⟨lines.map Line.row, ?_, ?_, fun lacking => ?_⟩
      · rw [List.forall₂_map_right_iff, List.forall₂_same]
        exact fun line _ => line.writtenAs_row
      · rw [listing, List.map_map]
        rfl
      · have names : ∀ line ∈ lines, ∀ token ∈ line.tokens, Lacks '\n' token.name := by
          intro line member token inside
          obtain ⟨text, among, same⟩ := read line member
          exact lacks_name_of_lacks (lacking text among) (same ▸ inside)
        have rows : ∀ row ∈ lines.map Line.row, Lacks '\n' row := by
          intro row among
          obtain ⟨line, member, rfl⟩ := List.mem_map.mp among
          exact Line.lacks_row (lacks_text_scope recorded (by decide) (by decide) names member)
            (names line member)
        have single : "\n".toList = ['\n'] := by decide
        rw [listing, ← cut_join single rows, List.map_map]
        rfl

end SJava
