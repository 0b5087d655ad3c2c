import SJava.Line.Form
import Mathlib.Computability.Language

/-!
# The sentences of each kind of line

The grammar of lines as languages over kinds of token, built by union, concatenation and repetition
and without the table `LineKind.next?`. For each role the language `LineKind.completions` holds what
may follow a token of that role up to the end of its line, and the table computes its derivatives:

* `cons_mem_sentences`: a line begins with the token that decides its kind and goes on with a
  completion of its opening role;
* `cons_mem_completions`: a token begins a completion exactly if the table gives it a role, and a
  completion of that role follows;
* `mem_completions_iff`: hence the completions of a role are the texts that the table leads through
  to a closing role.
-/

namespace SJava
open scoped Computability

namespace Sentence

/-! ## Languages of tokens -/

def oneOf (allowed : TokenKind → Bool) : Language TokenKind :=
  {kinds | ∃ kind, allowed kind = true ∧ kinds = [kind]}

def only (kind : TokenKind) : Language TokenKind := oneOf (· == kind)

def optional (part : Language TokenKind) : Language TokenKind := part + 1

/-- `item` at least once, with `separator` between. -/
def separated (separator item : Language TokenKind) : Language TokenKind :=
  item * (separator * item)∗

variable {allowed : TokenKind → Bool} {part rest : Language TokenKind}
  {kind expected : TokenKind} {kinds : List TokenKind}

@[simp] theorem cons_mem_oneOf_mul :
    kind :: kinds ∈ oneOf allowed * rest ↔ allowed kind = true ∧ kinds ∈ rest := by
  rw [Language.mem_mul]
  constructor
  · intro holds
    obtain ⟨_, ⟨first, h, rfl⟩, tail, ht, equal⟩ := holds
    obtain ⟨rfl, rfl⟩ := List.cons.inj equal
    exact ⟨h, ht⟩
  · intro holds
    obtain ⟨h, ht⟩ := holds
    exact ⟨[kind], ⟨kind, h, rfl⟩, kinds, ht, rfl⟩

@[simp] theorem nil_mem_mul : [] ∈ part * rest ↔ [] ∈ part ∧ [] ∈ rest := by
  rw [Language.mem_mul]
  constructor
  · intro holds
    obtain ⟨front, hf, tail, ht, equal⟩ := holds
    obtain ⟨rfl, rfl⟩ := List.append_eq_nil_iff.mp equal
    exact ⟨hf, ht⟩
  · intro holds
    obtain ⟨hf, ht⟩ := holds
    exact ⟨[], hf, [], ht, rfl⟩

@[simp] theorem nil_notMem_oneOf : [] ∉ oneOf allowed := by
  intro holds
  obtain ⟨first, _, equal⟩ := holds
  cases equal

@[simp] theorem cons_mem_only_mul :
    kind :: kinds ∈ only expected * rest ↔ kind = expected ∧ kinds ∈ rest := by
  simp [only]

@[simp] theorem cons_mem_only : kind :: kinds ∈ only expected ↔ kind = expected ∧ kinds = [] := by
  rw [← mul_one (only expected), cons_mem_only_mul, Language.mem_one]

@[simp] theorem nil_notMem_only : [] ∉ only expected := nil_notMem_oneOf

@[simp] theorem mem_optional_mul :
    kinds ∈ optional part * rest ↔ kinds ∈ part * rest ∨ kinds ∈ rest := by
  rw [optional, add_mul, one_mul, Language.mem_add]

theorem mem_kstar_mul :
    kinds ∈ part∗ * rest ↔ kinds ∈ part * (part∗ * rest) ∨ kinds ∈ rest := by
  conv_lhs => rw [← Language.one_add_self_mul_kstar_eq_kstar part]
  rw [add_mul, one_mul, Language.mem_add, mul_assoc, or_comm]

-- Only for a text that has a first token: for any text, `simp` would unfold the star for ever.
@[simp] theorem cons_mem_kstar_mul :
    kind :: kinds ∈ part∗ * rest ↔ kind :: kinds ∈ part * (part∗ * rest) ∨ kind :: kinds ∈ rest :=
  mem_kstar_mul

/-! ## Parts of lines -/

def typeWord : Language TokenKind := oneOf TokenKind.isTypeWord

def name : Language TokenKind := only .variableName

def value : Language TokenKind := oneOf TokenKind.isValue

def atom : Language TokenKind := oneOf TokenKind.isAtom

def comma : Language TokenKind := only .comma

def semicolon : Language TokenKind := only .semicolon

def initializer : Language TokenKind := only .equals * value

/-- What a declared name goes with: `final` asks for a value. -/
def declaredValue (isFinal : Bool) : Language TokenKind :=
  if isFinal then initializer else optional initializer

def declarator (isFinal : Bool) : Language TokenKind := name * declaredValue isFinal

def parameter : Language TokenKind := optional (only .finalWord) * typeWord * name

def operator : Language TokenKind := only .andAnd + only .orOr

def closing : Language TokenKind := only .rightParen * only .leftBrace

@[simp] theorem cons_mem_declaredValue_mul {isFinal : Bool} :
    kind :: kinds ∈ declaredValue isFinal * rest ↔
      kind = .equals ∧ kinds ∈ value * rest ∨ isFinal = false ∧ kind :: kinds ∈ rest := by
  cases isFinal <;> simp [declaredValue, initializer, mul_assoc]

@[simp] theorem cons_mem_operator_mul :
    kind :: kinds ∈ operator * rest ↔ (kind = .andAnd ∨ kind = .orOr) ∧ kinds ∈ rest := by
  rw [operator, add_mul, Language.mem_add, cons_mem_only_mul, cons_mem_only_mul, or_and_right]

end Sentence

open Sentence

/-! ## The grammar -/

def LineKind.sentences : LineKind → Language TokenKind
  | .declaration => typeWord * separated comma (declarator false) * semicolon
  | .finalDeclaration => only .finalWord * typeWord * separated comma (declarator true) * semicolon
  | .assignment => name * only .equals * value * semicolon
  | .methodCall =>
      only .methodName * optional (separated comma value) * only .rightParen * semicolon
  | .methodHeader =>
      only .voidWord * only .methodName * optional (separated comma parameter) * closing
  | .ifHeader => only .ifOpen * separated operator atom * closing
  | .whileHeader => only .whileOpen * separated operator atom * closing
  | .methodReturn => only .returnWord
  | .closingBracket => only .rightBrace
  | .comment => only .comment * ⊤

namespace Sentence

/-! ## Completions -/

def afterInDeclaration (isFinal : Bool) : Role → Language TokenKind
  | .finalWord => typeWord * (separated comma (declarator isFinal) * semicolon)
  | .typeWord | .comma => separated comma (declarator isFinal) * semicolon
  | .name => declaredValue isFinal * ((comma * declarator isFinal)∗ * semicolon)
  | .equals => value * ((comma * declarator isFinal)∗ * semicolon)
  | .value => (comma * declarator isFinal)∗ * semicolon
  | .semicolon => 1
  | _ => 0

def afterInAssignment : Role → Language TokenKind
  | .name => only .equals * (value * semicolon)
  | .equals => value * semicolon
  | .value => semicolon
  | .semicolon => 1
  | _ => 0

def afterInCall : Role → Language TokenKind
  | .methodName => optional (separated comma value) * (only .rightParen * semicolon)
  | .comma => separated comma value * (only .rightParen * semicolon)
  | .value => (comma * value)∗ * (only .rightParen * semicolon)
  | .closeParen => semicolon
  | .semicolon => 1
  | _ => 0

def afterInMethodHeader : Role → Language TokenKind
  | .voidWord => only .methodName * (optional (separated comma parameter) * closing)
  | .methodName => optional (separated comma parameter) * closing
  | .comma => separated comma parameter * closing
  | .finalWord => typeWord * (name * ((comma * parameter)∗ * closing))
  | .typeWord => name * ((comma * parameter)∗ * closing)
  | .name => (comma * parameter)∗ * closing
  | .closeParen => only .leftBrace
  | .openBrace => 1
  | _ => 0

def afterInCondition : Role → Language TokenKind
  | .condition | .operator => separated operator atom * closing
  | .value => (operator * atom)∗ * closing
  | .closeParen => only .leftBrace
  | .openBrace => 1
  | _ => 0

section Steps

variable {role : Role} {kind : TokenKind} {kinds : List TokenKind}

attribute [local simp] separated declarator parameter closing mul_assoc typeWord name value atom
  comma semicolon Language.mem_one Language.notMem_zero

-- In each of these the last case is the table's refusal, which has to be looked at role by role.

theorem cons_mem_afterInDeclaration {isFinal : Bool} :
    kind :: kinds ∈ afterInDeclaration isFinal role ↔
      ∃ played, Role.inDeclaration isFinal role kind = some played ∧
        kinds ∈ afterInDeclaration isFinal played := by
  fun_cases Role.inDeclaration isFinal role kind
  case case14 => cases role <;> simp_all [afterInDeclaration]
  all_goals simp_all [afterInDeclaration]

theorem cons_mem_afterInAssignment :
    kind :: kinds ∈ afterInAssignment role ↔
      ∃ played, Role.inAssignment role kind = some played ∧ kinds ∈ afterInAssignment played := by
  fun_cases Role.inAssignment role kind
  case case5 => cases role <;> simp_all [afterInAssignment]
  all_goals simp_all [afterInAssignment]

theorem cons_mem_afterInCall :
    kind :: kinds ∈ afterInCall role ↔
      ∃ played, Role.inCall role kind = some played ∧ kinds ∈ afterInCall played := by
  have notValue : TokenKind.rightParen.isValue = false := rfl
  fun_cases Role.inCall role kind
  case case9 => cases role <;> simp_all [afterInCall]
  all_goals simp_all [afterInCall]

theorem cons_mem_afterInMethodHeader :
    kind :: kinds ∈ afterInMethodHeader role ↔
      ∃ played, Role.inMethodHeader role kind = some played ∧
        kinds ∈ afterInMethodHeader played := by
  have notType : TokenKind.rightParen.isTypeWord = false := rfl
  have notFinalType : TokenKind.finalWord.isTypeWord = false := rfl
  fun_cases Role.inMethodHeader role kind
  case case15 => cases role <;> simp_all [afterInMethodHeader]
  all_goals simp_all [afterInMethodHeader]

theorem cons_mem_afterInCondition :
    kind :: kinds ∈ afterInCondition role ↔
      ∃ played, Role.inCondition role kind = some played ∧ kinds ∈ afterInCondition played := by
  fun_cases Role.inCondition role kind
  case case9 => cases role <;> simp_all [afterInCondition]
  all_goals simp_all [afterInCondition]

end Steps

end Sentence

/-! ## Steps of the tables -/

theorem TokenKind.isValue_of_isAtom {kind : TokenKind} (h : kind.isAtom = true) :
    kind.isValue = true := by
  cases kind <;> first | rfl | cases h

namespace Role

/-- Whether tokens of a kind can play a role in some line. -/
def fits : Role → TokenKind → Bool
  | .finalWord, kind => kind == .finalWord
  | .typeWord, kind => kind.isTypeWord
  | .name, kind => kind == .variableName
  | .equals, kind => kind == .equals
  | .value, kind => kind.isValue
  | .comma, kind => kind == .comma
  | .semicolon, kind => kind == .semicolon
  | .voidWord, kind => kind == .voidWord
  | .methodName, kind => kind == .methodName
  | .closeParen, kind => kind == .rightParen
  | .openBrace, kind => kind == .leftBrace
  | .condition, kind => kind == .ifOpen || kind == .whileOpen
  | .operator, kind => kind == .andAnd || kind == .orOr
  | .whole, kind => kind == .returnWord || kind == .rightBrace || kind == .comment

variable {role played : Role} {kind : TokenKind}

-- Each table plays a token in a role that fits it, and leaves a line that can still be completed.
-- The completions are found by following the table on a shortest line, from its end.

theorem inDeclaration_some {isFinal : Bool} (step : inDeclaration isFinal role kind = some played) :
    played.fits kind = true ∧ ∃ kinds, kinds ∈ afterInDeclaration isFinal played := by
  have semicolon : [] ∈ afterInDeclaration isFinal .semicolon := Language.nil_mem_one
  have value : [.semicolon] ∈ afterInDeclaration isFinal .value :=
    cons_mem_afterInDeclaration.mpr ⟨_, rfl, semicolon⟩
  have equals : [.intLiteral, .semicolon] ∈ afterInDeclaration isFinal .equals :=
    cons_mem_afterInDeclaration.mpr ⟨_, rfl, value⟩
  have name : [.equals, .intLiteral, .semicolon] ∈ afterInDeclaration isFinal .name :=
    cons_mem_afterInDeclaration.mpr ⟨_, rfl, equals⟩
  have comma : [.variableName, .equals, .intLiteral, .semicolon] ∈
      afterInDeclaration isFinal .comma :=
    cons_mem_afterInDeclaration.mpr ⟨_, rfl, name⟩
  revert step
  fun_cases inDeclaration isFinal role kind <;> intro step <;> cases step
  all_goals exact ⟨by simp_all [fits], _, by assumption⟩

theorem inAssignment_some (step : inAssignment role kind = some played) :
    played.fits kind = true ∧ ∃ kinds, kinds ∈ afterInAssignment played := by
  have semicolon : [] ∈ afterInAssignment .semicolon := Language.nil_mem_one
  have value : [.semicolon] ∈ afterInAssignment .value :=
    cons_mem_afterInAssignment.mpr ⟨_, rfl, semicolon⟩
  have equals : [.intLiteral, .semicolon] ∈ afterInAssignment .equals :=
    cons_mem_afterInAssignment.mpr ⟨_, rfl, value⟩
  revert step
  fun_cases inAssignment role kind <;> intro step <;> cases step
  all_goals exact ⟨by simp_all [fits], _, by assumption⟩

theorem inCall_some (step : inCall role kind = some played) :
    played.fits kind = true ∧ ∃ kinds, kinds ∈ afterInCall played := by
  have semicolon : [] ∈ afterInCall .semicolon := Language.nil_mem_one
  have closeParen : [.semicolon] ∈ afterInCall .closeParen :=
    cons_mem_afterInCall.mpr ⟨_, rfl, semicolon⟩
  have value : [.rightParen, .semicolon] ∈ afterInCall .value :=
    cons_mem_afterInCall.mpr ⟨_, rfl, closeParen⟩
  have comma : [.intLiteral, .rightParen, .semicolon] ∈ afterInCall .comma :=
    cons_mem_afterInCall.mpr ⟨_, rfl, value⟩
  revert step
  fun_cases inCall role kind <;> intro step <;> cases step
  all_goals exact ⟨by simp_all [fits], _, by assumption⟩

theorem inMethodHeader_some (step : inMethodHeader role kind = some played) :
    played.fits kind = true ∧ ∃ kinds, kinds ∈ afterInMethodHeader played := by
  have openBrace : [] ∈ afterInMethodHeader .openBrace := Language.nil_mem_one
  have closeParen : [.leftBrace] ∈ afterInMethodHeader .closeParen :=
    cons_mem_afterInMethodHeader.mpr ⟨_, rfl, openBrace⟩
  have methodName : [.rightParen, .leftBrace] ∈ afterInMethodHeader .methodName :=
    cons_mem_afterInMethodHeader.mpr ⟨_, rfl, closeParen⟩
  have name : [.rightParen, .leftBrace] ∈ afterInMethodHeader .name :=
    cons_mem_afterInMethodHeader.mpr ⟨_, rfl, closeParen⟩
  have typeWord : [.variableName, .rightParen, .leftBrace] ∈ afterInMethodHeader .typeWord :=
    cons_mem_afterInMethodHeader.mpr ⟨_, rfl, name⟩
  have finalWord : [.intWord, .variableName, .rightParen, .leftBrace] ∈
      afterInMethodHeader .finalWord :=
    cons_mem_afterInMethodHeader.mpr ⟨_, rfl, typeWord⟩
  have comma : [.intWord, .variableName, .rightParen, .leftBrace] ∈ afterInMethodHeader .comma :=
    cons_mem_afterInMethodHeader.mpr ⟨_, rfl, typeWord⟩
  revert step
  fun_cases inMethodHeader role kind <;> intro step <;> cases step
  all_goals exact ⟨by simp_all [fits], _, by assumption⟩

theorem inCondition_some (step : inCondition role kind = some played) :
    played.fits kind = true ∧ ∃ kinds, kinds ∈ afterInCondition played := by
  have openBrace : [] ∈ afterInCondition .openBrace := Language.nil_mem_one
  have closeParen : [.leftBrace] ∈ afterInCondition .closeParen :=
    cons_mem_afterInCondition.mpr ⟨_, rfl, openBrace⟩
  have value : [.rightParen, .leftBrace] ∈ afterInCondition .value :=
    cons_mem_afterInCondition.mpr ⟨_, rfl, closeParen⟩
  have operator : [.intLiteral, .rightParen, .leftBrace] ∈ afterInCondition .operator :=
    cons_mem_afterInCondition.mpr ⟨_, rfl, value⟩
  revert step
  fun_cases inCondition role kind <;> intro step <;> cases step
  all_goals exact ⟨by simp_all [fits, TokenKind.isValue_of_isAtom], _, by assumption⟩

end Role

namespace LineKind

variable {kind : LineKind} {role played : Role} {first last : TokenKind} {kinds : List TokenKind}

/-- What may follow a token of a role up to the end of its line. -/
def completions : LineKind → Role → Language TokenKind
  | .declaration => afterInDeclaration false
  | .finalDeclaration => afterInDeclaration true
  | .assignment => afterInAssignment
  | .methodCall => afterInCall
  | .methodHeader => afterInMethodHeader
  | .ifHeader | .whileHeader => afterInCondition
  | .methodReturn | .closingBracket => fun _ => 1
  | .comment => fun _ => ⊤

theorem cons_mem_completions (h : kind ≠ .comment) :
    first :: kinds ∈ kind.completions role ↔
      ∃ played, kind.next? role first = some played ∧ kinds ∈ kind.completions played := by
  cases kind with
  | declaration | finalDeclaration => exact cons_mem_afterInDeclaration
  | assignment => exact cons_mem_afterInAssignment
  | methodCall => exact cons_mem_afterInCall
  | methodHeader => exact cons_mem_afterInMethodHeader
  | ifHeader | whileHeader => exact cons_mem_afterInCondition
  | methodReturn | closingBracket => simp [completions, next?, Language.mem_one]
  | comment => exact absurd rfl h

theorem next?_some (step : kind.next? role first = some played) :
    played.fits first = true ∧ ∃ kinds, kinds ∈ kind.completions played := by
  cases kind with
  | declaration | finalDeclaration => exact Role.inDeclaration_some step
  | assignment => exact Role.inAssignment_some step
  | methodCall => exact Role.inCall_some step
  | methodHeader => exact Role.inMethodHeader_some step
  | ifHeader | whileHeader => exact Role.inCondition_some step
  | methodReturn | closingBracket | comment => cases step

/-- A line can end where its last token has been read, and nowhere else. -/
theorem nil_mem_completions (h : kind.terminator? = some last) :
    [] ∈ kind.completions role ↔ role.fits last = true := by
  -- No terminator is a value or a type word.
  have notValue : TokenKind.semicolon.isValue = false ∧ TokenKind.leftBrace.isValue = false :=
    ⟨rfl, rfl⟩
  have notType : TokenKind.semicolon.isTypeWord = false ∧ TokenKind.leftBrace.isTypeWord = false :=
    ⟨rfl, rfl⟩
  cases kind <;> cases h <;> cases role <;>
    simp_all [completions, afterInDeclaration, afterInAssignment, afterInCall, afterInMethodHeader,
      afterInCondition, Role.fits, separated, declarator, declaredValue, initializer, typeWord,
      name, value, atom, semicolon, closing, parameter, comma, operator, Language.notMem_zero,
      Language.nil_mem_kstar]

theorem eq_of_fits_terminator (h : kind.terminator? = some last) (hlast : role.fits last = true)
    (hfirst : role.fits first = true) : first = last := by
  cases kind <;> cases h <;> cases role <;> simp_all [Role.fits] <;> cases hlast

def begins : LineKind → TokenKind → Bool
  | .declaration, first => first.isTypeWord
  | .finalDeclaration, first => first == .finalWord
  | .assignment, first => first == .variableName
  | .methodHeader, first => first == .voidWord
  | .methodCall, first => first == .methodName
  | .comment, first => first == .comment
  | .methodReturn, first => first == .returnWord
  | .ifHeader, first => first == .ifOpen
  | .whileHeader, first => first == .whileOpen
  | .closingBracket, first => first == .rightBrace

theorem ofFirst?_eq_some : ofFirst? first = some kind ↔ kind.begins first = true := by
  cases first <;> cases kind <;> decide

theorem opening_fits (h : kind.begins first = true) : kind.opening.fits first = true := by
  cases kind <;> simp_all [begins, opening, Role.fits]

theorem cons_mem_sentences :
    first :: kinds ∈ kind.sentences ↔
      kind.begins first = true ∧ kinds ∈ kind.completions kind.opening := by
  cases kind <;>
    simp [sentences, begins, completions, opening, afterInDeclaration, afterInAssignment,
      afterInCall, afterInMethodHeader, afterInCondition, mul_assoc, typeWord, name,
      Language.mem_one]

end LineKind

end SJava
