import SJava.Proofs.Finals
import SJava.Proofs.Nesting
import SJava.Proofs.Tokenization

/-!
# The text of scopes

Scopes are printed as their segments with dots between them, and different scopes can come out the
same, as that of a block and that of a method called `if1` do. In an accepted program they cannot.
The lexer cuts the names of methods from letters, digits and white space, so no segment has a dot in
its text (`Recorded.dotless_segmentAt`) and the texts of the segments can be read back from that of
the scope (`Scope.map_text_eq`). And only the segment right below the top level belongs to a method
(`Recorded.nested`), so each of these texts stands for one segment (`Scope.Nested.eq_of_map_text`).
-/

namespace SJava

/-! ## Segments -/

theorem toDigits_toNat_inj {m n : UInt32}
    (same : Nat.toDigits 10 m.toNat = Nat.toDigits 10 n.toNat) : m = n := by
  have numbers := congrArg (Nat.ofDigitChars 10 · 0) same
  simp only [Nat.ofDigitChars_ten_toDigits] at numbers
  exact UInt32.toNat_inj.mp numbers

theorem dot_notMem_toDigits {n : Nat} : '.' ∉ Nat.toDigits 10 n := fun member =>
  absurd (Nat.isDigit_of_mem_toDigits (by decide) (by decide) member) (by decide)

namespace Segment

variable {segment other : Segment}

def Dotless (segment : Segment) : Prop := '.' ∉ segment.text.toList

theorem dotless_of_isConditional (conditional : segment.isConditional = true) :
    segment.Dotless := by
  cases segment with
  | ifBlock number | whileBlock number => simp [Dotless, text, dot_notMem_toDigits]
  | global | method name => cases conditional

theorem eq_of_isConditional (here : segment.isConditional = true)
    (there : other.isConditional = true) (same : segment.text = other.text) :
    segment = other := by
  have texts := congrArg String.toList same
  cases segment with
  | ifBlock m =>
      cases other with
      | ifBlock n =>
          have numbers : m = n := toDigits_toNat_inj (by simpa [text] using texts)
          rw [numbers]
      | whileBlock n => simp [text] at texts
      | global | method name => cases there
  | whileBlock m =>
      cases other with
      | ifBlock n => simp [text] at texts
      | whileBlock n =>
          have numbers : m = n := toDigits_toNat_inj (by simpa [text] using texts)
          rw [numbers]
      | global | method name => cases there
  | global | method name => cases here

end Segment

/-! ## Scopes -/

namespace Scope

variable {scope other : Scope} {name : String}

/-- A scope as an accepted program has them, which no other such scope is printed like. -/
structure Plain (scope : Scope) : Prop where
  nested : scope.Nested
  dotless : ∀ segment ∈ scope.path, segment.Dotless

theorem text_child_congr {segment twin : Segment} (printed : segment.text = twin.text) :
    (scope.child segment).text = (scope.child twin).text := by
  simp [text, segments, child, printed]

theorem splitOn_text (dotless : ∀ segment ∈ scope.path, segment.Dotless) :
    scope.text.toList.splitOn '.' = scope.segments.map (·.text.toList) := by
  have joined : scope.text.toList =
      ['.'].intercalate (scope.segments.map (·.text.toList)) := by
    rw [text, String.toList_intercalate, List.map_map]
    rfl
  rw [joined, List.splitOn_intercalate]
  · intro chars member
    obtain ⟨segment, inside, rfl⟩ := List.mem_map.mp member
    rcases List.mem_cons.mp inside with rfl | inside
    · decide
    · exact dotless segment (List.mem_reverse.mp inside)
  · exact List.cons_ne_nil _ _

/-- The texts of the segments can be read back. -/
theorem map_text_eq (here : scope.Plain) (there : other.Plain) (same : scope.text = other.text) :
    scope.path.map Segment.text = other.path.map Segment.text := by
  have read : scope.segments.map (·.text.toList) = other.segments.map (·.text.toList) := by
    rw [← splitOn_text here.dotless, ← splitOn_text there.dotless, same]
  rw [segments, segments, List.map_cons, List.map_cons, List.map_reverse, List.map_reverse] at read
  have paths := List.reverse_inj.mp (List.cons.inj read).2
  have texts := congrArg (List.map String.ofList) paths
  simpa [List.map_map, Function.comp_def] using texts

theorem InMethod.eq_of_map_text {otherName : String} (here : scope.InMethod name)
    (there : other.InMethod otherName)
    (same : scope.path.map Segment.text = other.path.map Segment.text) : scope = other := by
  obtain ⟨blocks, path, conditionals⟩ := here
  obtain ⟨otherBlocks, otherPath, otherConditionals⟩ := there
  rw [path, otherPath, List.map_append, List.map_append] at same
  obtain ⟨around, names⟩ := List.append_inj' same rfl
  have blocksEq : blocks = otherBlocks := map_inj_on (fun block member other memberToo =>
    Segment.eq_of_isConditional (conditionals block member) (otherConditionals other memberToo))
    around
  have named : name = otherName := (List.cons.inj names).1
  have paths : scope.path = other.path := by
    rw [path, otherPath, blocksEq, named]
  exact congrArg Scope.mk paths

theorem Nested.eq_of_map_text (here : scope.Nested) (there : other.Nested)
    (same : scope.path.map Segment.text = other.path.map Segment.text) : scope = other := by
  have depths := congrArg List.length same
  rcases here with rfl | ⟨name, inside⟩
  · rcases there with rfl | ⟨otherName, blocks, path, -⟩
    · rfl
    · simp [path, global] at depths
  · rcases there with rfl | ⟨otherName, insideToo⟩
    · obtain ⟨blocks, path, -⟩ := inside
      simp [path, global] at depths
    · exact inside.eq_of_map_text insideToo same

theorem Plain.eq_of_text (here : scope.Plain) (there : other.Plain)
    (same : scope.text = other.text) : scope = other :=
  here.nested.eq_of_map_text there.nested (map_text_eq here there same)

end Scope

/-! ## Names of methods -/

theorem TokenKind.body_of_methodName {text : List Char}
    (spelled : TokenKind.methodName.Spells text) :
    ∃ body, text = body ++ ['('] ∧ ∀ c ∈ body, (Token.isWord c || Token.isSpace c) = true := by
  obtain ⟨first, rest, spaces, alpha, words, blanks, rfl⟩ := spelled
  refine ⟨_, rfl, fun c member => ?_⟩
  simp only [List.mem_append, List.mem_cons] at member
  rcases member with (rfl | inside) | inside
  · simp [Token.isWord, Char.isAlphanum, alpha]
  · simp [words c inside]
  · simp [blanks c inside]

theorem TokenKind.dot_notMem_of_methodName {text : List Char}
    (spelled : TokenKind.methodName.Spells text) : '.' ∉ text := by
  obtain ⟨body, rfl, allowed⟩ := TokenKind.body_of_methodName spelled
  intro member
  rcases List.mem_append.mp member with inside | paren
  · exact absurd (allowed _ inside) (by decide)
  · exact absurd paren (by decide)

theorem dot_notMem_name {text : String} {token : Token} (member : token ∈ tokens text)
    (kind : token.kind = .methodName) : '.' ∉ token.name.toList := by
  obtain ⟨piece, cut, read⟩ := List.mem_filterMap.mp member
  have spelled := (tokenization_lexemes text.toList).spelled piece cut
  intro dot
  cases Lexeme.reads_of_token? spelled read with
  | variableName => cases kind
  | unnamed _ _ other => exact other kind
  | beforeBlank | beforeParen =>
      rw [Token.name, Option.getD_some, String.toList_ofList] at dot
      exact TokenKind.dot_notMem_of_methodName spelled (List.mem_append_left _ dot)

namespace Recorded

variable {registry : Registry} {lines : List Line} {line : Line} {place : Nat}

/-- A method is named by a token of its header. -/
theorem name_of_segment (h : Recorded registry lines) {name : String}
    (segment : segmentAt lines place = .method name) :
    ∃ header ∈ lines, ∃ method ∈ header.tokens,
      method.kind = .methodName ∧ method.name = name := by
  obtain ⟨header, parameters, stored, kind, named⟩ := h.header_of_segment segment
  have member := List.mem_of_getElem? stored
  have formed := h.wellFormed header member
  obtain ⟨first, rest, shape, start⟩ := formed.begun
  obtain ⟨method, more, rfl, isMethod, header?⟩ :=
    Line.header_shape shape start formed.form kind
  cases named.symm.trans header?
  exact ⟨header, member, method, by simp [shape], isMethod, rfl⟩

theorem dotless_segmentAt (h : Recorded registry lines) : (segmentAt lines place).Dotless := by
  cases segment : segmentAt lines place with
  | global => exact (by decide : '.' ∉ "global".toList)
  | ifBlock | whileBlock => exact Segment.dotless_of_isConditional rfl
  | method name =>
      obtain ⟨header, member, method, inHeader, isMethod, rfl⟩ := h.name_of_segment segment
      obtain ⟨text, cut⟩ := (h.wellFormed header member).read
      exact dot_notMem_name (cut ▸ inHeader) isMethod

theorem dotless_of_path (h : Recorded registry lines) {path : List Segment} {blocks : List Nat}
    (opened : path = blocks.map (segmentAt lines)) : ∀ segment ∈ path, segment.Dotless := by
  intro segment member
  rw [opened] at member
  obtain ⟨place, -, rfl⟩ := List.mem_map.mp member
  exact h.dotless_segmentAt

theorem home_nested (h : Recorded registry lines) (placed : ∀ line ∈ lines, line.Placed)
    (member : line ∈ lines) : line.home.Nested := by
  by_cases kind : line.kind = .methodHeader
  · have top := (placed line member).header kind
    rw [Line.home, if_pos kind, top]
    exact .inr ⟨_, Scope.inMethod_body⟩
  · rw [Line.home_of_other kind]
    exact (h.nested placed).2 line member

section Plain

variable (h : Recorded registry lines) (placed : ∀ line ∈ lines, line.Placed)

include h placed

theorem plain_scope (member : line ∈ lines) : line.scope.Plain := by
  obtain ⟨place, found⟩ := List.mem_iff_getElem?.mp member
  exact ⟨(h.nested placed).2 line member, h.dotless_of_path (h.path_at found)⟩

theorem plain_home (member : line ∈ lines) : line.home.Plain := by
  obtain ⟨place, found⟩ := List.mem_iff_getElem?.mp member
  exact ⟨h.home_nested placed member, h.dotless_of_path (h.home_path found)⟩

end Plain

end Recorded

/-! ## Accepted programs -/

/-- The scopes that a program tells of: those that its lines stand in and those that its variables
are declared in. -/
def Program.scopes (program : Program) : List Scope :=
  program.lines.map Line.scope ++ program.symbols.vars.records.map Variable.scope

/-- In an accepted program, scopes with one text are one scope, whether lines stand in them or
variables are declared in them. It is not so for all scopes: a method can be named as a block
is printed. -/
theorem accepted_scope_text {texts : List String} {program : Program}
    (accepted : verify texts = .ok program) :
    (∀ scope ∈ program.scopes, ∀ other ∈ program.scopes, scope.text = other.text →
        scope = other) ∧
      ∀ (around : Scope) (number : UInt32),
        (around.child (.method ("if" ++ number.toNat.repr))).text =
            (around.child (.ifBlock number)).text ∧
          around.child (.method ("if" ++ number.toNat.repr)) ≠ around.child (.ifBlock number) := by
  obtain ⟨verifier, fed, finished⟩ := verify_ok_iff.mp accepted
  obtain ⟨recorded, -⟩ := Verifier.feedAll_ok_iff.mp fed
  obtain ⟨stored, -, rules⟩ := Verifier.rules_of_finish recorded finished
  have vars := Verifier.vars_of_finish finished
  rw [← stored] at recorded
  have placed : ∀ line ∈ program.lines, line.Placed := fun line => rules.placed
  have plain : ∀ scope ∈ program.scopes, scope.Plain := by
    intro scope member
    rcases List.mem_append.mp member with ofLine | ofVariable
    · obtain ⟨line, inside, rfl⟩ := List.mem_map.mp ofLine
      exact recorded.plain_scope placed inside
    · obtain ⟨v, known, rfl⟩ := List.mem_map.mp ofVariable
      have key := List.mem_map_of_mem (f := Variable.key) known
      rw [vars, VariableTable.keys_given] at key
      obtain ⟨place, line, found, -, home⟩ := recorded.key_known_iff.mp key
      rw [← home]
      exact recorded.plain_home placed (List.mem_of_getElem? found)
  refine ⟨fun scope here other there same => ?_, fun around number => ⟨?_, ?_⟩⟩
  · exact (plain scope here).eq_of_text (plain other there) same
  · exact Scope.text_child_congr rfl
  · intro same
    cases (List.cons.inj (congrArg Scope.path same)).1

/-- A method that is named as a block is printed: the text of its body stands for the body. -/
theorem accepted_scope_text_if1 :
    ∃ program line v,
      verify ["void if1(int a) \x7b", "while (a) \x7b", "\x7d", "return;", "\x7d"] = .ok program ∧
      program.lines[3]? = some line ∧ program.symbols.vars.records[0]? = some v ∧
      line.scope.text = (Scope.global.child (.ifBlock 1)).text ∧ v.scope.text = line.scope.text ∧
      v.scope = line.scope := by
  have evaluated : (verify ["void if1(int a) \x7b", "while (a) \x7b", "\x7d", "return;",
      "\x7d"]).toOption.any (fun program => program.lines[3]?.any fun line =>
        program.symbols.vars.records[0]?.any fun v =>
          line.scope.text == (Scope.global.child (.ifBlock 1)).text &&
            v.scope.text == line.scope.text) = true := by
    decide +kernel
  obtain ⟨program, accepted, test⟩ := ok_of_any evaluated
  obtain ⟨line, stored, test⟩ := (Option.any_eq_true _ _).mp test
  obtain ⟨v, record, test⟩ := (Option.any_eq_true _ _).mp test
  simp only [Bool.and_eq_true, beq_iff_eq] at test
  have ofVariable : v.scope ∈ program.scopes :=
    List.mem_append_right _ (List.mem_map_of_mem (List.mem_of_getElem? record))
  have ofLine : line.scope ∈ program.scopes :=
    List.mem_append_left _ (List.mem_map_of_mem (List.mem_of_getElem? stored))
  exact ⟨program, line, v, accepted, stored, record, test.1, test.2,
    (accepted_scope_text accepted).1 _ ofVariable _ ofLine test.2⟩

end SJava
