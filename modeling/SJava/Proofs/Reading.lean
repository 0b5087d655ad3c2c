import SJava.Verdict
import SJava.Proofs.Cutting
import SJava.Proofs.Spacing
import Mathlib.Data.List.Basic

/-!
# Reading

The verdict on a file is that on its lines. A line ends at each line feed, less one carriage return
before it (`splitLines_append`), and the rest of the file after the last line feed is a line unless
there is none (`splitLines_of_notMem`). Pulling lines from a source stops at the first line that
fails or cannot be read (`Verifier.pull_texts`, `Verifier.pull_unreadable`). Carriage returns before
the line feeds leave one at the end of some lines, which is white space, so that the verdict stays
the same (`Source.verify_withReturns`).
-/

namespace SJava

/-! ## Lines -/

section

variable {α : Type} [BEq α] [LawfulBEq α] {lf cr : α} {line rest cs : List α}

/-- A line without the carriage return at its end. -/
def dropReturn (cr : α) (line : List α) : List α :=
  if line.getLast? == some cr then line.dropLast else line

/-- Puts a carriage return before every line feed. -/
def putReturns (lf cr : α) (cs : List α) : List α :=
  cs.flatMap fun c => if c == lf then [cr, lf] else [c]

theorem splitLines_lf (rest : List α) :
    splitLines lf cr (lf :: rest) = [] :: splitLines lf cr rest := by
  cases rest <;> simp [splitLines]

theorem splitLines_of_notMem (unended : lf ∉ line) (ne : line ≠ []) :
    splitLines lf cr line = [line] := by
  induction line with
  | nil => contradiction
  | cons c rest ih =>
      obtain ⟨first, later⟩ := not_or.mp (mt List.mem_cons.mpr unended)
      cases rest with
      | nil => simp [splitLines, Ne.symm first]
      | cons d more =>
          have next : lf ≠ d := fun same => later (same ▸ List.mem_cons_self)
          rw [splitLines, ih later (List.cons_ne_nil d more)]
          simp [Ne.symm first, Ne.symm next]

theorem splitLines_append (unended : lf ∉ line) :
    splitLines lf cr (line ++ lf :: rest) = dropReturn cr line :: splitLines lf cr rest := by
  induction line with
  | nil => exact splitLines_lf rest
  | cons c line ih =>
      obtain ⟨first, later⟩ := not_or.mp (mt List.mem_cons.mpr unended)
      cases line with
      | nil =>
          show splitLines lf cr (c :: lf :: rest) = _
          rw [splitLines, splitLines_lf]
          rcases eq_or_ne c cr with rfl | other
          · simp [dropReturn, Ne.symm first]
          · simp [dropReturn, Ne.symm first, other]
      | cons d more =>
          have next : lf ≠ d := fun same => later (same ▸ List.mem_cons_self)
          have split := ih later
          rw [List.cons_append] at split
          rw [List.cons_append, List.cons_append, splitLines, split]
          have dropped : dropReturn cr (c :: d :: more) = c :: dropReturn cr (d :: more) := by
            simp only [dropReturn, List.getLast?_cons_cons, List.dropLast_cons_cons]
            split <;> rfl
          simp [Ne.symm first, Ne.symm next, dropped]

theorem putReturns_of_notMem (unended : lf ∉ line) : putReturns lf cr line = line := by
  induction line with
  | nil => rfl
  | cons c line ih =>
      obtain ⟨first, later⟩ := not_or.mp (mt List.mem_cons.mpr unended)
      have rest := ih later
      rw [putReturns] at rest
      simp [putReturns, Ne.symm first, rest]

theorem putReturns_append (unended : lf ∉ line) :
    putReturns lf cr (line ++ lf :: rest) = line ++ [cr] ++ lf :: putReturns lf cr rest := by
  have front : putReturns lf cr line = line := putReturns_of_notMem unended
  rw [putReturns] at front
  simp [putReturns, front]

theorem eq_dropReturn (line : List α) :
    line = dropReturn cr line ∨ line = dropReturn cr line ++ [cr] := by
  rw [dropReturn]
  split
  · rename_i ends
    right
    rw [beq_iff_eq, List.getLast?_eq_some_iff] at ends
    obtain ⟨front, shape⟩ := ends
    simp [shape]
  · exact .inl rfl

/-- With a carriage return before every line feed, the lines are the same but for a carriage return
at their end. -/
theorem splitLines_putReturns {cs : List α} (different : lf ≠ cr) :
    List.Forall₂ (fun line same => line = same ∨ line = same ++ [cr])
      (splitLines lf cr (putReturns lf cr cs)) (splitLines lf cr cs) := by
  by_cases ended : lf ∈ cs
  · obtain ⟨line, rest, shape, unended⟩ := List.eq_append_cons_of_mem ended
    have unendedToo : lf ∉ line ++ [cr] := by simp [unended, different]
    have dropped : dropReturn cr (line ++ [cr]) = line := by simp [dropReturn]
    rw [shape, putReturns_append unended, splitLines_append unended,
      splitLines_append unendedToo, dropped]
    exact .cons (eq_dropReturn line) (splitLines_putReturns different)
  · rw [putReturns_of_notMem ended]
    exact List.forall₂_same.mpr fun line _ => .inl rfl
termination_by cs.length
decreasing_by
  rw [shape, List.length_append, List.length_cons]
  omega

end

/-! ## Bytes -/

def decode? (line : List UInt8) : Option String := String.fromUTF8? ⟨line.toArray⟩

section

variable {line front : List UInt8} {text : String}

theorem decode?_eq_some_iff : decode? line = some text ↔ text.toByteArray.data.toList = line := by
  rw [decode?, String.fromUTF8?]
  constructor
  · intro decoded
    split at decoded
    · cases decoded
      rfl
    · cases decoded
  · rintro rfl
    exact dif_pos text.isValidUTF8

theorem decode?_ofList {chars : List Char} :
    decode? (chars.flatMap String.utf8EncodeChar) = some (.ofList chars) := by
  rw [decode?_eq_some_iff, String.toByteArray_ofList, List.utf8Encode, List.toList_data_toByteArray]

theorem eq_flatMap_of_decode? (decoded : decode? line = some text) :
    line = text.toList.flatMap String.utf8EncodeChar := by
  rw [decode?_eq_some_iff] at decoded
  rw [← decoded, ← List.toList_data_toByteArray (l := text.toList.flatMap _), ← List.utf8Encode,
    ← String.toByteArray_ofList, String.ofList_toList]

/-- No character but the carriage return is written with its byte at the end. -/
theorem eq_nil_of_utf8EncodeChar {c : Char} (shape : String.utf8EncodeChar c = front ++ [0x0d]) :
    front = [] := by
  have inside : front.length < (String.utf8EncodeChar c).length := by simp [shape]
  have last : (String.utf8EncodeChar c)[front.length] = 0x0d := by simp [shape]
  have first : (0x0d : UInt8).IsUTF8FirstByte := by decide
  rw [← last] at first
  exact List.eq_nil_of_length_eq_zero (UInt8.isUTF8FirstByte_getElem_utf8EncodeChar.mp first)

theorem decode?_return : decode? (line ++ [0x0d]) = (decode? line).map (· ++ "\r") := by
  cases decoded : decode? line with
  | some text =>
      rw [Option.map_some, decode?_eq_some_iff, String.toByteArray_append, ByteArray.data_append,
        Array.toList_append, decode?_eq_some_iff.mp decoded]
      rfl
  | none =>
      rw [Option.map_none]
      by_contra found
      obtain ⟨text, found⟩ := Option.ne_none_iff_exists'.mp found
      have bytes := eq_flatMap_of_decode? found
      generalize text.toList = chars at bytes
      rcases List.eq_nil_or_concat chars with rfl | ⟨before, c, rfl⟩
      · simp at bytes
      · rw [List.concat_eq_append, List.flatMap_append, List.flatMap_singleton] at bytes
        rcases List.eq_nil_or_concat (String.utf8EncodeChar c) with none | ⟨front, b, shape⟩
        · exact String.utf8EncodeChar_ne_nil none
        · rw [List.concat_eq_append] at shape
          rw [shape, ← List.append_assoc] at bytes
          obtain ⟨same, last⟩ := List.append_inj' bytes rfl
          rw [← List.singleton_inj.mp last] at shape
          rw [eq_nil_of_utf8EncodeChar shape, List.append_nil] at same
          rw [same, decode?_ofList] at decoded
          cases decoded

end

/-! ## Sources -/

/-- A file with a carriage return before every line feed. -/
def withReturns (bytes : ByteArray) : ByteArray :=
  ⟨(putReturns 0x0a 0x0d bytes.data.toList).toArray⟩

theorem Padded.refl (text : String) : Padded text text :=
  ⟨[], [], by simp⟩

theorem padded_return (text : String) : Padded text (text ++ "\r") := by
  refine .of_all [] ['\r'] ⟨?_, rfl, rfl, nofun⟩
  rw [String.toList_append, List.nil_append]
  rfl

/-- Two lines of sources that are the same but for white space around a text that can be read. -/
def AlikeLines : Except String String → Except String String → Prop
  | .ok text, .ok padded => Padded text padded
  | .error reason, .error other => reason = other
  | _, _ => False

namespace Verifier

variable {verifier : Verifier} {texts : List String} {rest source other : Source} {reason : String}

theorem pull_texts :
    verifier.pull (texts.map .ok) = (verifier.feedAll texts).mapError .illegal := by
  induction texts generalizing verifier with
  | nil => rfl
  | cons text texts ih =>
      rw [List.map_cons, pull, feedAll]
      rcases verifier.feed text with ⟨later, _ | _⟩
      · rfl
      · exact ih

/-- A line that cannot be read comes to light only if no line before it fails. -/
theorem pull_unreadable :
    verifier.pull (texts.map .ok ++ .error reason :: rest) =
      (verifier.feedAll texts).mapError .illegal >>= fun _ => .error (.unreadable reason) := by
  induction texts generalizing verifier with
  | nil => rfl
  | cons text texts ih =>
      rw [List.map_cons, List.cons_append, pull, feedAll]
      rcases verifier.feed text with ⟨later, _ | _⟩
      · rfl
      · exact ih

theorem pull_alike (alike : List.Forall₂ AlikeLines source other) :
    verifier.pull other = verifier.pull source := by
  induction alike generalizing verifier with
  | nil => rfl
  | @cons line same _ _ first _ ih =>
      cases line with
      | error reason =>
          cases same with
          | error => rw [pull, pull, show reason = _ from first]
          | ok => cases first
      | ok text =>
          cases same with
          | error => cases first
          | ok padded =>
              rw [pull, pull, Padded.feed first]
              rcases verifier.feed text with ⟨later, _ | _⟩
              · rfl
              · exact ih

end Verifier

theorem Source.ofBytes_eq (bytes : ByteArray) :
    ofBytes bytes = (splitLines 0x0a 0x0d bytes.data.toList).map fun line =>
      (decode? line).elim (.error notUtf8) .ok := by
  rw [ofBytes, byteLines, List.map_map]
  refine List.map_congr_left fun line _ => ?_
  show _ = (String.fromUTF8? ⟨line.toArray⟩).elim _ _
  rw [Function.comp_apply]
  cases String.fromUTF8? ⟨line.toArray⟩ <;> rfl

/-- No line of a file has a line feed in it. -/
theorem Source.lacks_of_mem_ofBytes {bytes : ByteArray} {text : String}
    (member : .ok text ∈ Source.ofBytes bytes) : Lacks '\n' text := by
  rw [ofBytes_eq] at member
  obtain ⟨line, inside, decoded⟩ := List.mem_map.mp member
  cases read : decode? line with
  | none => simp [read] at decoded
  | some found =>
      obtain rfl : found = text := by simpa [read] using decoded
      intro feed
      apply notMem_of_mem_splitLines inside
      rw [eq_flatMap_of_decode? read]
      exact List.mem_flatMap.mpr ⟨'\n', feed, by decide⟩

theorem Source.ofBytes_withReturns (bytes : ByteArray) :
    List.Forall₂ AlikeLines (ofBytes bytes) (ofBytes (withReturns bytes)) := by
  rw [ofBytes_eq, ofBytes_eq, List.forall₂_map_left_iff, List.forall₂_map_right_iff]
  refine List.Forall₂.flip (List.Forall₂.imp ?_ (splitLines_putReturns (by decide)))
  intro line same alike
  show AlikeLines ((decode? same).elim _ _) ((decode? line).elim _ _)
  rcases alike with rfl | rfl
  · cases decode? line with
    | none => rfl
    | some text => exact Padded.refl text
  · rw [decode?_return]
    cases decode? same with
    | none => rfl
    | some text => exact padded_return text

theorem Source.verify_withReturns (bytes : ByteArray) :
    (ofBytes (withReturns bytes)).verify = (ofBytes bytes).verify := by
  rw [verify, verify, Verifier.pull_alike (ofBytes_withReturns bytes)]

/-- A file gets the verdict on its lines if all of them are text. Otherwise the lines before the
first one that is not decide, and only by a fault that feeding them finds. Carriage returns before
the line feeds change nothing. -/
theorem verify_bytes (bytes : ByteArray) :
    (∀ texts, byteLines bytes = texts.map some →
      (Source.ofBytes bytes).verify =
        match verify texts with
        | .ok _ => .valid
        | .error fault => .invalid fault) ∧
    (∀ texts rest, byteLines bytes = texts.map some ++ none :: rest →
      (Source.ofBytes bytes).verify =
        match Verifier.feedAll {} texts with
        | .ok _ => .unreadable notUtf8
        | .error fault => .invalid fault) ∧
    (Source.ofBytes (withReturns bytes)).verify = (Source.ofBytes bytes).verify := by
  refine ⟨fun texts lines => ?_, fun texts rest lines => ?_, Source.verify_withReturns bytes⟩
  · have source : Source.ofBytes bytes = texts.map .ok := by
      rw [Source.ofBytes, lines, List.map_map]
      rfl
    rw [Source.verify, source, Verifier.pull_texts, verify]
    cases Verifier.feedAll {} texts with
    | error => rfl
    | ok verifier =>
        dsimp only [bind, Except.bind, Except.mapError]
        cases verifier.finish <;> rfl
  · obtain ⟨more, source⟩ :
        ∃ more, Source.ofBytes bytes = texts.map .ok ++ .error notUtf8 :: more := by
      rw [Source.ofBytes, lines, List.map_append, List.map_map]
      exact ⟨_, rfl⟩
    rw [Source.verify, source, Verifier.pull_unreadable]
    cases Verifier.feedAll {} texts <;> rfl

/-- The first file has a fault of meaning in its second line. The second file has one in its first
line, which does not come to light since the next line is no text. -/
theorem verify_bytes_unreadable :
    (byteLines "int a;\r\nint b = a;".toUTF8 = ["int a;", "int b = a;"].map some ∧
      ∃ fault, verify ["int a;", "int b = a;"] = .error fault ∧
        (Source.ofBytes "int a;\r\nint b = a;".toUTF8).verify = .invalid fault) ∧
    byteLines ("a = 1;\n".toUTF8 ++ ⟨#[0xff]⟩) = ["a = 1;"].map some ++ none :: [] ∧
      (Source.ofBytes ("a = 1;\n".toUTF8 ++ ⟨#[0xff]⟩)).verify = .unreadable notUtf8 := by
  have lines : byteLines "int a;\r\nint b = a;".toUTF8 = ["int a;", "int b = a;"].map some := by
    decide +kernel
  have failed : verify ["int a;", "int b = a;"] = .error ⟨2, .uninitialized "a"⟩ := by
    decide +kernel
  have linesToo : byteLines ("a = 1;\n".toUTF8 ++ ⟨#[0xff]⟩) =
      ["a = 1;"].map some ++ none :: [] := by
    decide +kernel
  have evaluated : (Verifier.feedAll {} ["a = 1;"]).toBool = true := by decide +kernel
  obtain ⟨verifier, fed⟩ := ok_of_toBool evaluated
  have verdict := (verify_bytes _).1 _ lines
  have verdictToo := (verify_bytes _).2.1 _ _ linesToo
  rw [failed] at verdict
  rw [fed] at verdictToo
  exact ⟨⟨lines, _, failed, verdict⟩, linesToo, verdictToo⟩

end SJava
