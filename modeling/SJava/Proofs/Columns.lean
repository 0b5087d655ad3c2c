import SJava.Report
import SJava.Proofs.Cutting
import SJava.Proofs.ScopeText

/-!
# Columns

A row tells a line's number, kind and scope in columns, and then its tokens. The columns for the
kind and the scope are padded, with no blank of their own between them and what follows. The name of
every kind is shorter than its column, but the text of a scope grows with the names and blocks
around it. Where it fills its column the first token is written right behind it, and the words of
the row are no longer those that were written into it (`Line.Printable.words_row_eq_iff`). Even so
no two lines are written in the same way (`Line.Printable.eq_of_row`): the kind of a line says which
tokens it can start with, and the label of none of these ends in that of another one.
-/

namespace SJava

/-! ## Words -/

def blanks (n : Nat) : String := .ofList (List.replicate n ' ')

/-- The words of a row, with blanks between them. -/
def words (row : String) : List String := (cut ' ' row).filter (· ≠ "")

/-- A text that is one word. -/
structure Solid (text : String) : Prop where
  notEmpty : text ≠ ""
  blankless : Lacks ' ' text

section

variable {text front back : String} {texts : List String} {width n : Nat}

theorem words_append (front back : String) :
    words (front ++ " " ++ back) = words front ++ words back := by
  have pieces : cut ' ' (front ++ " " ++ back) = cut ' ' front ++ cut ' ' back :=
    cut_append (by simp)
  rw [words, pieces, List.filter_append, words, words]

theorem words_of_solid (solid : Solid text) : words text = [text] := by
  rw [words, cut_of_lacks solid.blankless, List.filter_eq_self]
  intro piece member
  rw [List.mem_singleton.mp member]
  simpa using solid.notEmpty

theorem solid_repr (n : Nat) : Solid n.repr := by
  refine ⟨fun empty => ?_, lacks_repr (by decide) n⟩
  have digits := congrArg String.toList empty
  rw [Nat.toList_repr] at digits
  exact Nat.toDigits_ne_nil digits

theorem blanks_succ (n : Nat) : blanks (n + 1) = " " ++ blanks n := by
  rw [← String.toList_inj]
  simp [blanks, List.replicate_succ]

theorem words_blanks_append (n : Nat) (back : String) : words (blanks n ++ back) = words back := by
  induction n with
  | zero => rw [show blanks 0 = "" from rfl, String.empty_append]
  | succ n ih =>
      calc words (blanks (n + 1) ++ back)
          _ = words ("" ++ " " ++ (blanks n ++ back)) := by
            rw [blanks_succ, String.append_assoc, String.empty_append]
          _ = words "" ++ words (blanks n ++ back) := words_append _ _
          _ = words back := ih

theorem words_append_blanks (front back : String) (apart : 0 < n) :
    words (front ++ blanks n ++ back) = words front ++ words back := by
  obtain ⟨n, rfl⟩ := Nat.exists_eq_add_one.mpr apart
  calc words (front ++ blanks (n + 1) ++ back)
      _ = words (front ++ " " ++ (blanks n ++ back)) := by
        simp only [blanks_succ, String.append_assoc]
      _ = words front ++ words (blanks n ++ back) := words_append _ _
      _ = words front ++ words back := by rw [words_blanks_append]

theorem words_intercalate (solid : ∀ text ∈ texts, Solid text) :
    words (" ".intercalate texts) = texts := by
  by_cases empty : texts = []
  · rw [empty]
    rfl
  · rw [words, cut_intercalate rfl (fun text member => (solid text member).blankless) empty,
      List.filter_eq_self.mpr fun text member => by simpa using (solid text member).notEmpty]

theorem alignRight_eq : alignRight width text = blanks (width - text.length) ++ text := by
  rw [← String.toList_inj]
  simp [alignRight, blanks, List.leftpad, String.length_toList]

theorem alignLeft_eq : alignLeft width text = text ++ blanks (width - text.length) := by
  rw [← String.toList_inj]
  simp [alignLeft, blanks, List.rightpad, String.length_toList]

end

/-! ## Names -/

section

variable {mark : Char} (outside : mark = ' ' ∨ mark = '(')

include outside

theorem TokenKind.notMem_of_variableName {text : List Char}
    (spelled : TokenKind.variableName.Spells text) : mark ∉ text := by
  intro member
  rcases spelled with ⟨first, rest, alpha, inside, rfl⟩ | ⟨rest, ⟨-, inside⟩, rfl⟩
  · rcases List.mem_cons.mp member with rfl | later
    · rcases outside with rfl | rfl <;> exact absurd alpha (by decide)
    · have allowed := inside mark later
      rcases outside with rfl | rfl <;> exact absurd allowed (by decide)
  · rcases List.mem_cons.mp member with rfl | later
    · rcases outside with same | same <;> cases same
    · have allowed := inside mark later
      rcases outside with rfl | rfl <;> exact absurd allowed (by decide)

/-- The parenthesis stands at the end of what a method's name is read from. -/
theorem TokenKind.notMem_of_methodName {name rest : List Char}
    (spelled : TokenKind.methodName.Spells (name ++ ' ' :: rest)) (blankless : ' ' ∉ name) :
    mark ∉ name := by
  rcases outside with rfl | rfl
  · exact blankless
  · obtain ⟨body, shape, allowed⟩ := TokenKind.body_of_methodName spelled
    have absent : '(' ∉ body := fun inside => absurd (allowed _ inside) (by decide)
    intro member
    obtain ⟨before, after, rfl, absentToo⟩ := List.eq_append_cons_of_mem member
    rw [List.append_assoc, List.cons_append] at shape
    have front := congrArg (List.takeWhile (· != '(')) shape
    rw [takeWhile_ne_append absentToo, takeWhile_ne_append absent] at front
    rw [front] at shape
    simp at shape

theorem lacks_name {text : String} {token : Token} (member : token ∈ tokens text) :
    Lacks mark token.name := by
  obtain ⟨piece, inside, read⟩ := List.mem_filterMap.mp member
  have spelled := (tokenization_lexemes text.toList).spelled piece inside
  cases Lexeme.reads_of_token? spelled read with
  | variableName =>
      rw [Lacks, Token.name, Option.getD_some, String.toList_ofList]
      exact TokenKind.notMem_of_variableName outside spelled
  | beforeBlank blankless =>
      rw [Lacks, Token.name, Option.getD_some, String.toList_ofList]
      exact TokenKind.notMem_of_methodName outside spelled blankless
  | beforeParen blankless parenless =>
      rw [Lacks, Token.name, Option.getD_some, String.toList_ofList]
      rcases outside with rfl | rfl
      · exact fun found => blankless (List.mem_append_left _ found)
      · exact parenless
  | unnamed => exact List.not_mem_nil

end

section

variable {mark : Char} {registry : Registry} {lines : List Line} {line : Line} {place : Nat}

theorem lacks_of_isAlphanum {text : String} (between : mark.isAlphanum = false)
    (inside : text.toList.all Char.isAlphanum = true) : Lacks mark text := by
  intro member
  rw [List.all_eq_true.mp inside mark member] at between
  cases between

theorem lacks_digits (between : mark.isAlphanum = false) (number : Nat) :
    Lacks mark number.repr := by
  apply lacks_repr
  rw [Char.isAlphanum, Bool.or_eq_false_iff] at between
  exact between.2

theorem lacks_text_segmentAt (h : Recorded registry lines) (between : mark.isAlphanum = false)
    (names : ∀ line ∈ lines, ∀ token ∈ line.tokens, Lacks mark token.name) :
    Lacks mark (segmentAt lines place).text := by
  cases segment : segmentAt lines place with
  | global => exact lacks_of_isAlphanum between (by decide)
  | ifBlock number =>
      exact (lacks_of_isAlphanum between (by decide)).append (lacks_digits between _)
  | whileBlock number =>
      exact (lacks_of_isAlphanum between (by decide)).append (lacks_digits between _)
  | method name =>
      obtain ⟨header, member, method, inHeader, -, rfl⟩ := h.name_of_segment segment
      exact names header member method inHeader

/-- The text of a scope has dots, letters and digits in it, and what its methods are named with. -/
theorem lacks_text_scope (h : Recorded registry lines) (between : mark.isAlphanum = false)
    (notDot : mark ≠ '.') (names : ∀ line ∈ lines, ∀ token ∈ line.tokens, Lacks mark token.name)
    (member : line ∈ lines) : Lacks mark line.scope.text := by
  obtain ⟨place, found⟩ := List.mem_iff_getElem?.mp member
  refine lacks_intercalate ?_ fun piece inside => ?_
  · simpa [Lacks] using notDot
  · obtain ⟨segment, among, rfl⟩ := List.mem_map.mp inside
    rcases List.mem_cons.mp among with rfl | below
    · exact lacks_of_isAlphanum between (by decide)
    · rw [List.mem_reverse, h.path_at found] at below
      obtain ⟨block, -, rfl⟩ := List.mem_map.mp below
      exact lacks_text_segmentAt h between names

end

/-! ## Labels -/

theorem TokenKind.solid_label (kind : TokenKind) : Solid kind.label := by
  cases kind <;> exact ⟨by decide, by decide⟩

theorem TokenKind.parenless_label (kind : TokenKind) : Lacks '(' kind.label := by
  cases kind <;> decide

theorem TokenKind.label_inj {kind twin : TokenKind} (same : kind.label = twin.label) :
    kind = twin := by
  have table : ∀ kind ∈ byPriority, ∀ twin ∈ byPriority, kind.label = twin.label → kind = twin := by
    decide +kernel
  exact table kind kind.mem_byPriority twin twin.mem_byPriority same

theorem LineKind.solid_label (kind : LineKind) : Solid kind.label := by
  cases kind <;> exact ⟨by decide, by decide⟩

theorem LineKind.label_length_lt (kind : LineKind) : kind.label.length < 22 := by
  cases kind <;> decide

theorem LineKind.mem_all (kind : LineKind) : kind ∈ all := by
  cases kind <;> decide

theorem LineKind.label_inj {kind other : LineKind} (same : kind.label = other.label) :
    kind = other := by
  have table : ∀ kind ∈ all, ∀ other ∈ all, kind.label = other.label → kind = other := by
    decide +kernel
  exact table kind kind.mem_all other other.mem_all same

section

variable {kind : LineKind} {first second : TokenKind} {front back : String}

theorem TokenKind.eq_of_label_suffix (isType : first.isTypeWord = true)
    (isTypeToo : second.isTypeWord = true)
    (inside : first.label.toList <:+ second.label.toList) : first = second := by
  have table : ∀ first ∈ byPriority.filter isTypeWord, ∀ second ∈ byPriority.filter isTypeWord,
      first.label.toList <:+ second.label.toList → first = second := by
    decide
  exact table first (List.mem_filter.mpr ⟨first.mem_byPriority, isType⟩) second
    (List.mem_filter.mpr ⟨second.mem_byPriority, isTypeToo⟩) inside

/-- No label of a token that lines of one kind start with ends in that of another one. -/
theorem LineKind.eq_of_label_suffix (begins : kind.begins first = true)
    (beginsToo : kind.begins second = true) (inside : first.label.toList <:+ second.label.toList) :
    first = second := by
  cases kind with
  | declaration => exact TokenKind.eq_of_label_suffix begins beginsToo inside
  | finalDeclaration | assignment | methodHeader | methodCall | comment | methodReturn | ifHeader
  | whileHeader | closingBracket =>
      exact (beq_iff_eq.mp begins).trans (beq_iff_eq.mp beginsToo).symm

theorem LineKind.append_label_inj (begins : kind.begins first = true)
    (beginsToo : kind.begins second = true) (same : front ++ first.label = back ++ second.label) :
    front = back ∧ first = second := by
  have whole : front.toList ++ first.label.toList = back.toList ++ second.label.toList := by
    simpa using congrArg String.toList same
  have kinds : first = second := by
    rcases List.suffix_or_suffix_of_suffix ⟨_, whole⟩ ⟨_, rfl⟩ with inside | inside
    · exact eq_of_label_suffix begins beginsToo inside
    · exact (eq_of_label_suffix beginsToo begins inside).symm
  rw [kinds] at same
  exact ⟨(String.append_left_inj _).mp same, kinds⟩

end

/-! ## Tokens -/

namespace Token

variable {token other : Token} {name front back : String}

theorem text_of_named (named : token.name? = some name) :
    token.text = token.kind.label ++ "(" ++ name ++ ")" := by
  rw [text, named]

theorem text_of_unnamed (unnamed : token.name? = none) : token.text = token.kind.label := by
  rw [text, unnamed]

theorem solid_text (lacking : Lacks ' ' token.name) : Solid token.text := by
  obtain ⟨notEmpty, blankless⟩ := token.kind.solid_label
  cases named : token.name? with
  | none =>
      rw [text_of_unnamed named]
      exact ⟨notEmpty, blankless⟩
  | some name =>
      rw [Token.name, named, Option.getD_some] at lacking
      rw [text_of_named named]
      refine ⟨fun empty => notEmpty ?_,
        ((blankless.append (by decide)).append lacking).append (by decide)⟩
      simp at empty

theorem toList_append_text (named : token.name? = some name) : (front ++ token.text).toList =
    (front ++ token.kind.label).toList ++ '(' :: (name.toList ++ [')']) := by
  simp [text_of_named named]

/-- The label and the name can be read back, even where something stands right before the label. -/
theorem append_text_inj (parenless : Lacks '(' front) (parenlessToo : Lacks '(' back)
    (same : front ++ token.text = back ++ other.text) :
    front ++ token.kind.label = back ++ other.kind.label ∧ token.name? = other.name? := by
  have here : Lacks '(' (front ++ token.kind.label) := parenless.append token.kind.parenless_label
  have there : Lacks '(' (back ++ other.kind.label) :=
    parenlessToo.append other.kind.parenless_label
  cases named : token.name? with
  | none =>
      rw [text_of_unnamed named] at same
      cases namedToo : other.name? with
      | none =>
          rw [text_of_unnamed namedToo] at same
          exact ⟨same, rfl⟩
      | some name =>
          rw [Lacks, same, toList_append_text namedToo] at here
          simp at here
  | some name =>
      cases namedToo : other.name? with
      | none =>
          rw [text_of_unnamed namedToo] at same
          rw [Lacks, ← same, toList_append_text named] at there
          simp at there
      | some otherName =>
          have chars := congrArg String.toList same
          rw [toList_append_text named, toList_append_text namedToo] at chars
          have fronts := congrArg (List.takeWhile (· != '(')) chars
          rw [takeWhile_ne_append here, takeWhile_ne_append there] at fronts
          rw [fronts, List.append_cancel_left_eq, List.cons.injEq,
            List.append_left_inj, String.toList_inj] at chars
          rw [chars.2]
          exact ⟨String.toList_inj.mp fronts, rfl⟩

theorem eq_of_kind_name (kinds : token.kind = other.kind) (names : token.name? = other.name?) :
    token = other := by
  cases token
  cases other
  cases kinds
  cases names
  rfl

theorem text_injective : Function.Injective text := by
  intro token other same
  have empty : Lacks '(' "" := List.not_mem_nil
  obtain ⟨labels, names⟩ := append_text_inj empty empty (by simpa using same)
  exact eq_of_kind_name (TokenKind.label_inj (by simpa using labels)) names

end Token

/-! ## Rows -/

theorem Scope.text_ne_empty (scope : Scope) : scope.text ≠ "" := by
  have shape : scope.text =
      "g" ++ ".".intercalate ("lobal" :: scope.path.reverse.map Segment.text) := by
    rw [text, segments, List.map_cons, show Segment.global.text = "g" ++ "lobal" by decide,
      String.intercalate_cons_append]
  intro empty
  rw [shape] at empty
  simp at empty

namespace Line

variable {line other : Line} {first : Token} {rest : List Token}

/-- A line as programs have them: neither its scope nor its names have blanks in their texts. -/
structure Printable (line : Line) : Prop where
  blankless : Lacks ' ' line.scope.text
  parenless : Lacks '(' line.scope.text
  names : ∀ token ∈ line.tokens, Lacks ' ' token.name
  begun : ∃ first rest, line.tokens = first :: rest ∧ line.kind.begins first.kind = true

theorem printable_of_recorded {registry : Registry} {lines : List Line}
    (h : Recorded registry lines) (member : line ∈ lines) : line.Printable := by
  have names {mark : Char} (outside : mark = ' ' ∨ mark = '(') :
      ∀ line ∈ lines, ∀ token ∈ line.tokens, Lacks mark token.name := by
    intro line member token inside
    obtain ⟨text, cut⟩ := (h.wellFormed line member).read
    exact lacks_name outside (cut ▸ inside)
  exact ⟨lacks_text_scope h (by decide) (by decide) (names (.inl rfl)) member,
    lacks_text_scope h (by decide) (by decide) (names (.inr rfl)) member,
    names (.inl rfl) line member, (h.wellFormed line member).begun⟩

theorem row_eq : line.row = blanks (4 - line.number.toNat.repr.length) ++
    line.number.toNat.repr ++ "  " ++ line.kind.label ++
    blanks (22 - line.kind.label.length) ++ line.scope.text ++
    blanks (24 - line.scope.text.length) ++ " ".intercalate (line.tokens.map Token.text) := by
  simp only [row, alignRight_eq, alignLeft_eq, String.append_assoc]

theorem words_row : words line.row =
    line.number.toNat.repr :: line.kind.label :: words (line.scope.text ++
      blanks (24 - line.scope.text.length) ++ " ".intercalate (line.tokens.map Token.text)) := by
  have shape : line.row = blanks (4 - line.number.toNat.repr.length) ++
      (line.number.toNat.repr ++ blanks 2 ++ (line.kind.label ++
        blanks (22 - line.kind.label.length) ++ (line.scope.text ++
          blanks (24 - line.scope.text.length) ++
            " ".intercalate (line.tokens.map Token.text)))) := by
    rw [row_eq, show "  " = blanks 2 from rfl]
    simp only [String.append_assoc]
  have gap : 0 < 22 - line.kind.label.length := Nat.sub_pos_of_lt line.kind.label_length_lt
  rw [shape, words_blanks_append, words_append_blanks _ _ Nat.two_pos,
    words_append_blanks _ _ gap, words_of_solid (solid_repr _),
    words_of_solid line.kind.solid_label]
  rfl

namespace Printable

theorem solid_scope (h : line.Printable) : Solid line.scope.text :=
  ⟨line.scope.text_ne_empty, h.blankless⟩

theorem solid_tokens (h : line.Printable) : ∀ text ∈ line.tokens.map Token.text, Solid text := by
  intro text member
  obtain ⟨token, inside, rfl⟩ := List.mem_map.mp member
  exact Token.solid_text (h.names token inside)

theorem words_row_of_short (h : line.Printable) (short : line.scope.text.length < 24) :
    words line.row = line.number.toNat.repr :: line.kind.label :: line.scope.text ::
      line.tokens.map Token.text := by
  rw [words_row, words_append_blanks _ _ (Nat.sub_pos_of_lt short),
    words_of_solid h.solid_scope, words_intercalate h.solid_tokens]
  rfl

theorem words_row_of_long (h : line.Printable) (shape : line.tokens = first :: rest)
    (long : 24 ≤ line.scope.text.length) :
    words line.row = line.number.toNat.repr :: line.kind.label ::
      (line.scope.text ++ first.text) :: rest.map Token.text := by
  have solid := h.solid_tokens
  rw [shape, List.map_cons, List.forall_mem_cons] at solid
  have joined : ∀ text ∈ (line.scope.text ++ first.text) :: rest.map Token.text, Solid text := by
    refine List.forall_mem_cons.mpr ⟨⟨?_, h.blankless.append solid.1.blankless⟩, solid.2⟩
    intro empty
    have chars := congrArg String.toList empty
    simp [line.scope.text_ne_empty] at chars
  -- Without a blank in between, the scope and the first token are one word.
  rw [words_row, Nat.sub_eq_zero_of_le long, show blanks 0 = "" from rfl, String.append_empty,
    shape, List.map_cons, ← String.intercalate_cons_append, words_intercalate joined]

theorem words_row_eq_iff (h : line.Printable) :
    words line.row = line.number.toNat.repr :: line.kind.label :: line.scope.text ::
      line.tokens.map Token.text ↔ line.scope.text.length < 24 := by
  refine ⟨fun read => ?_, h.words_row_of_short⟩
  by_contra long
  obtain ⟨first, rest, shape, -⟩ := h.begun
  rw [h.words_row_of_long shape (Nat.not_lt.mp long), shape] at read
  have lengths := congrArg List.length read
  simp at lengths

theorem short_of_row (here : line.Printable) (there : other.Printable)
    (same : line.row = other.row) (short : line.scope.text.length < 24) :
    other.scope.text.length < 24 := by
  by_contra long
  obtain ⟨first, rest, shape, -⟩ := there.begun
  have read := congrArg words same
  rw [here.words_row_of_short short, there.words_row_of_long shape (Nat.not_lt.mp long)] at read
  simp only [List.cons.injEq] at read
  obtain ⟨-, -, scopes, -⟩ := read
  -- The shorter scope would have to be the longer one and a token.
  have lengths := congrArg String.length scopes
  rw [String.length_append] at lengths
  omega

/-- Lines with one row tell the same. -/
theorem eq_of_row (here : line.Printable) (there : other.Printable)
    (same : line.row = other.row) : line.number = other.number ∧ line.kind = other.kind ∧
      line.scope.text = other.scope.text ∧ line.tokens = other.tokens := by
  have read := congrArg words same
  have heads := read
  rw [words_row, words_row] at heads
  simp only [List.cons.injEq] at heads
  obtain ⟨digits, labels, -⟩ := heads
  have numbers : line.number = other.number :=
    toDigits_toNat_inj (by simpa using congrArg String.toList digits)
  have kinds : line.kind = other.kind := LineKind.label_inj labels
  rcases Nat.lt_or_ge line.scope.text.length 24 with short | long
  · have shortToo := here.short_of_row there same short
    rw [here.words_row_of_short short, there.words_row_of_short shortToo] at read
    simp only [List.cons.injEq] at read
    obtain ⟨-, -, scopes, texts⟩ := read
    exact ⟨numbers, kinds, scopes, Token.text_injective.list_map texts⟩
  · have longToo : 24 ≤ other.scope.text.length :=
      Nat.not_lt.mp fun shortToo => absurd long
        (Nat.not_le.mpr (there.short_of_row here same.symm shortToo))
    obtain ⟨first, rest, shape, begins⟩ := here.begun
    obtain ⟨second, more, shapeToo, beginsToo⟩ := there.begun
    rw [here.words_row_of_long shape long, there.words_row_of_long shapeToo longToo] at read
    simp only [List.cons.injEq] at read
    obtain ⟨-, -, joined, texts⟩ := read
    -- The kind of the line settles where the scope ends and the first token starts.
    obtain ⟨labels, names⟩ := Token.append_text_inj here.parenless there.parenless joined
    obtain ⟨scopes, firsts⟩ := LineKind.append_label_inj begins (kinds ▸ beginsToo) labels
    rw [shape, shapeToo, Token.eq_of_kind_name firsts names, Token.text_injective.list_map texts]
    exact ⟨numbers, kinds, scopes, rfl⟩

end Printable

end Line

/-! ## Annotated programs -/

/-- In the rows of a program, blanks stand between the kind and the scope of a line, but between the
scope and the tokens only if the scope is shorter than its column, and exactly then the words of the
row are what was written into it. Rows are the same only for lines with the same number, kind, scope
and tokens, be they of one program or of two. -/
theorem columns_apart_iff {texts : List String} {lines : List Line}
    (annotated : annotate texts = .ok lines) :
    (∀ line ∈ lines,
      (∃ indent gap space : Nat,
        line.row = blanks indent ++ line.number.toNat.repr ++ "  " ++ line.kind.label ++
          blanks gap ++ line.scope.text ++ blanks space ++
            " ".intercalate (line.tokens.map Token.text) ∧
        0 < gap ∧ (0 < space ↔ line.scope.text.length < 24)) ∧
      (words line.row = line.number.toNat.repr :: line.kind.label :: line.scope.text ::
        line.tokens.map Token.text ↔ line.scope.text.length < 24)) ∧
    ∀ (others : List String) (otherLines : List Line), annotate others = .ok otherLines →
      ∀ line ∈ lines, ∀ other ∈ otherLines, line.row = other.row →
        line.number = other.number ∧ line.kind = other.kind ∧
          line.scope.text = other.scope.text ∧ line.tokens = other.tokens := by
  obtain ⟨registry, recorded, -⟩ := annotate_ok_iff.mp annotated
  refine ⟨fun line member => ⟨?_, ?_⟩,
    fun others otherLines annotatedToo line member other found => ?_⟩
  · exact ⟨_, _, _, Line.row_eq, Nat.sub_pos_of_lt line.kind.label_length_lt, Nat.sub_pos_iff_lt⟩
  · exact (Line.printable_of_recorded recorded member).words_row_eq_iff
  · obtain ⟨otherRegistry, recordedToo, -⟩ := annotate_ok_iff.mp annotatedToo
    exact (Line.printable_of_recorded recorded member).eq_of_row
      (Line.printable_of_recorded recordedToo found)

/-- The scope leaves one blank in its column. -/
theorem columns_apart_iff_narrow :
    ∃ lines line, annotate ["void aMethodOfSixteen() \x7b", "return;", "\x7d"] = .ok lines ∧
      line ∈ lines ∧ line.scope.text.length = 23 ∧
      words line.row = ["2", "return", "global.aMethodOfSixteen", "return"] := by
  have evaluated : (annotate ["void aMethodOfSixteen() \x7b", "return;", "\x7d"]).toOption.any
      (fun lines => lines[1]?.any fun line => line.scope.text == "global.aMethodOfSixteen" &&
        (line.number == 2 && line.kind == .methodReturn &&
          line.tokens == [⟨.returnWord, none⟩])) = true := by
    decide +kernel
  obtain ⟨lines, annotated, test⟩ := ok_of_any evaluated
  obtain ⟨line, stored, test⟩ := (Option.any_eq_true _ _).mp test
  simp only [Bool.and_eq_true, beq_iff_eq] at test
  obtain ⟨scope, ⟨number, kind⟩, tokens⟩ := test
  have member := List.mem_of_getElem? stored
  have length : line.scope.text.length = 23 := by
    rw [scope]
    decide
  have read := (((columns_apart_iff annotated).1 line member).2).mpr (by omega)
  refine ⟨lines, line, annotated, member, length, ?_⟩
  rw [read, scope, number, kind, tokens]
  decide

/-- In this program the scope and the tokens of a line run together, so that blanks do not always
stand between them. -/
theorem columns_run_together :
    (∃ lines line, annotate ["void aVeryLongMethodName() \x7b", "return;", "\x7d"] = .ok lines ∧
      line ∈ lines ∧ line.scope.text = "global.aVeryLongMethodName" ∧
      line.row = "   2  return                global.aVeryLongMethodNamereturn") ∧
    ¬∀ (texts : List String) (lines : List Line), annotate texts = .ok lines →
      ∀ line ∈ lines, ∃ (front : String) (space : Nat), 0 < space ∧
        line.row = front ++ line.scope.text ++ blanks space ++
          " ".intercalate (line.tokens.map Token.text) := by
  have evaluated : (annotate ["void aVeryLongMethodName() \x7b", "return;", "\x7d"]).toOption.any
      (fun lines => lines[1]?.any fun line => line.scope.text == "global.aVeryLongMethodName" &&
        line.row == "   2  return                global.aVeryLongMethodNamereturn" &&
          line.tokens == [⟨.returnWord, none⟩]) = true := by
    decide +kernel
  obtain ⟨lines, annotated, test⟩ := ok_of_any evaluated
  obtain ⟨line, stored, test⟩ := (Option.any_eq_true _ _).mp test
  simp only [Bool.and_eq_true, beq_iff_eq] at test
  obtain ⟨⟨scope, row⟩, tokens⟩ := test
  have member := List.mem_of_getElem? stored
  refine ⟨⟨lines, line, annotated, member, scope, row⟩, fun apart => ?_⟩
  obtain ⟨front, space, positive, shape⟩ := apart _ _ annotated line member
  -- Behind a blank, the token would be a word of its own.
  have single : words "return" = ["return"] := by decide +kernel
  have read := words_append_blanks (front ++ line.scope.text)
    (" ".intercalate (line.tokens.map Token.text)) positive
  rw [← shape, row, tokens] at read
  have last := congrArg List.getLast? read
  rw [show words (" ".intercalate (List.map Token.text [⟨.returnWord, none⟩])) = ["return"] from
    single, List.getLast?_concat] at last
  exact absurd last (by decide +kernel)

end SJava
