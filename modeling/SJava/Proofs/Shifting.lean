import SJava.Proofs.Registration
import SJava.Proofs.Relabelling
import Mathlib.Data.UInt

/-!
# Shifted lines

Lines that are moved to another place of a program get other numbers, and so do the blocks that they
open. Beyond that nothing changes: shifted lines are passed from the shifted position
(`Walk.shifted`), and declare the shifted variables (`Shift.newVariables_line`).
-/

namespace SJava

/-- How far lines are moved, with the `if` and `while` blocks in them. -/
structure Shift where
  number : UInt32
  ifs : UInt32
  whiles : UInt32

namespace Shift

instance : Zero Shift := ⟨⟨0, 0, 0⟩⟩

instance : Neg Shift := ⟨fun s => ⟨-s.number, -s.ifs, -s.whiles⟩⟩

variable (s : Shift)

def segment : Segment → Segment
  | .ifBlock number => .ifBlock (number + s.ifs)
  | .whileBlock number => .whileBlock (number + s.whiles)
  | segment => segment

def scope (scope : Scope) : Scope := ⟨scope.path.map s.segment⟩

def place (place : Initialization) : Initialization :=
  ⟨place.line + s.number, s.scope place.scope⟩

def record (v : Variable) : Variable :=
  { v with scope := s.scope v.scope, initialization? := v.initialization?.map s.place }

def line (line : Line) : Line :=
  { line with number := line.number + s.number, scope := s.scope line.scope }

def position (position : Position) : Position :=
  ⟨s.scope position.scope, position.ifCount + s.ifs, position.whileCount + s.whiles⟩

/-- The shift over some lines: what comes after them is moved by it when they are put before. -/
def across (lines : List Line) : Shift :=
  { number := .ofNat lines.length
    ifs := .ofNat (lines.countP (·.kind == .ifHeader))
    whiles := .ofNat (lines.countP (·.kind == .whileHeader)) }

section

variable {s} {scope : Scope} {line : Line} {lines : List Line} {position : Position}

theorem segment_neg (segment : Segment) : (-s).segment (s.segment segment) = segment := by
  cases segment with
  | ifBlock number => exact congrArg Segment.ifBlock (add_neg_cancel_right number s.ifs)
  | whileBlock number => exact congrArg Segment.whileBlock (add_neg_cancel_right number s.whiles)
  | global | method => rfl

theorem scope_neg (scope : Scope) : (-s).scope (s.scope scope) = scope := by
  obtain ⟨path⟩ := scope
  have same : (-s).segment ∘ s.segment = id := funext segment_neg
  rw [Shift.scope, Shift.scope, List.map_map, same, List.map_id]

theorem line_neg (line : Line) : (-s).line (s.line line) = line := by
  obtain ⟨number, kind, scope, tokens⟩ := line
  have sameNumber : number + s.number + (-s).number = number :=
    add_neg_cancel_right number s.number
  rw [Shift.line, Shift.line]
  simp only [sameNumber, scope_neg]

theorem neg_neg_line (line : Line) : s.line ((-s).line line) = line := by
  have twice : - -s = s := by
    obtain ⟨number, ifs, whiles⟩ := s
    exact congr (congr (congrArg Shift.mk (neg_neg number)) (neg_neg ifs)) (neg_neg whiles)
  have same := line_neg (s := -s) line
  rwa [twice] at same

theorem position_neg (position : Position) :
    (-s).position (s.position position) = position := by
  obtain ⟨scope, ifCount, whileCount⟩ := position
  have ifs : ifCount + s.ifs + (-s).ifs = ifCount := add_neg_cancel_right ifCount s.ifs
  have whiles : whileCount + s.whiles + (-s).whiles = whileCount :=
    add_neg_cancel_right whileCount s.whiles
  simp only [Shift.position, scope_neg, ifs, whiles]

theorem line_zero (line : Line) : (0 : Shift).line line = line := by
  obtain ⟨number, kind, ⟨path⟩, tokens⟩ := line
  have segments : (0 : Shift).segment = id := by
    funext segment
    cases segment with
    | ifBlock number => exact congrArg Segment.ifBlock (add_zero number)
    | whileBlock number => exact congrArg Segment.whileBlock (add_zero number)
    | global | method => rfl
  have sameNumber : number + (0 : Shift).number = number := add_zero number
  rw [Shift.line]
  simp only [sameNumber, Shift.scope, segments, List.map_id]

theorem segment_injective : Function.Injective s.segment :=
  Function.LeftInverse.injective segment_neg

theorem root_segment {segment : Segment} {name : String} :
    s.segment segment = .method name ↔ segment = .method name := by
  cases segment <;> simp [Shift.segment]

theorem scope_eq_global : s.scope scope = .global ↔ scope = .global := by
  rw [← Scope.isGlobal_iff, ← Scope.isGlobal_iff, Shift.scope, Scope.isGlobal, Scope.isGlobal,
    List.isEmpty_map]

theorem home_line : (s.line line).home = s.scope line.home := by
  rw [Line.home, Line.home]
  show (if line.kind = .methodHeader then _ else _) = _
  split <;> rfl

theorem newMethods_line : (s.line line).newMethods = line.newMethods := rfl

theorem declared_line : (s.line line).declared = line.declared.map s.record := by
  rw [Line.declared, Line.declared]
  simp only [show (s.line line).kind = line.kind from rfl,
    show (s.line line).tokens = line.tokens from rfl]
  cases (if line.kind == .finalDeclaration then line.tokens.tail else line.tokens) with
  | nil => rfl
  | cons type rest =>
      cases declares : type.kind.declaredType? with
      | none => simp only [declares, List.map_nil]
      | some =>
          simp only [declares, List.map_map]
          rfl

theorem newVariables_line : (s.line line).newVariables = line.newVariables.map s.record := by
  by_cases declares : line.kind = .declaration ∨ line.kind = .finalDeclaration
  · have declaresToo : (s.line line).kind = .declaration ∨ (s.line line).kind = .finalDeclaration :=
      declares
    rw [Line.newVariables_of_declares declares, Line.newVariables_of_declares declaresToo,
      declared_line]
  · rw [not_or] at declares
    by_cases kind : line.kind = .methodHeader
    · rw [Line.newVariables, Line.newVariables, home_line]
      have same : (s.line line).header? = line.header? := rfl
      rw [show (s.line line).kind = line.kind from rfl, same, kind]
      rcases line.header? with _ | ⟨name, parameters⟩
      · rfl
      · simp only [List.map_map]
        rfl
    · have other : (s.line line).newVariables = [] := by
        apply Line.newVariables_of_other
        · exact declares.1
        · exact declares.2
        · exact kind
      rw [other, Line.newVariables_of_other declares.1 declares.2 kind, List.map_nil]

theorem wellFormed_line (formed : line.WellFormed) : (s.line line).WellFormed := by
  have form : (s.line line).checkForm = line.checkForm := Line.checkForm_congr rfl rfl
  exact ⟨formed.read, formed.begun, form.trans formed.form⟩

end

end Shift

section

variable {s : Shift} {line : Line} {lines : List Line} {first last : Position}

theorem Position.Passes.shifted (passes : first.Passes line last) :
    (s.position first).Passes (s.line line) (s.position last) := by
  have around (scope : line.scope = first.scope) : (s.line line).scope = (s.position first).scope :=
    congrArg s.scope scope
  have counted (count shift : UInt32) : count + 1 + shift = count + shift + 1 :=
    add_right_comm count 1 shift
  cases passes with
  | header kind scope =>
      have entered : (s.position first).Passes (s.line line) _ := .header kind (around scope)
      rwa [Shift.home_line] at entered
  | ifHeader kind scope =>
      have entered : (s.position first).Passes (s.line line) _ := .ifHeader kind (around scope)
      rwa [Shift.position, ← counted] at entered
  | whileHeader kind scope =>
      have entered : (s.position first).Passes (s.line line) _ := .whileHeader kind (around scope)
      rwa [Shift.position, ← counted] at entered
  | closing kind scope => exact .closing kind (congrArg s.scope scope)
  | plain opens kind scope => exact .plain opens kind (around scope)

theorem Walk.shifted (walk : Walk first lines last) :
    Walk (s.position first) (lines.map s.line) (s.position last) := by
  induction walk with
  | nil => exact .nil
  | cons here _ ih => exact .cons here.shifted ih

theorem Position.Passes.counts (passes : first.Passes line last) :
    last.ifCount = first.ifCount + (Shift.across [line]).ifs ∧
      last.whileCount = first.whileCount + (Shift.across [line]).whiles := by
  cases passes with
  | header kind | ifHeader kind | whileHeader kind | closing kind => simp [Shift.across, kind]
  | plain opens =>
      cases kind : line.kind <;> simp [kind, LineKind.opens] at opens <;> simp [Shift.across, kind]

theorem Shift.across_cons (line : Line) (lines : List Line) :
    (Shift.across (line :: lines)).ifs = (Shift.across [line]).ifs + (Shift.across lines).ifs ∧
      (Shift.across (line :: lines)).whiles =
        (Shift.across [line]).whiles + (Shift.across lines).whiles := by
  have split (test : Line → Bool) : UInt32.ofNat ((line :: lines).countP test) =
      .ofNat ([line].countP test) + .ofNat (lines.countP test) := by
    rw [← UInt32.ofNat_add, ← List.countP_append, List.singleton_append]
  exact ⟨split _, split _⟩

/-- A walk opens the blocks of its lines. -/
theorem Walk.counts (walk : Walk first lines last) :
    last.ifCount = first.ifCount + (Shift.across lines).ifs ∧
      last.whileCount = first.whileCount + (Shift.across lines).whiles := by
  induction walk with
  | nil => simp [Shift.across]
  | @cons _ _ _ line lines here _ ih =>
      obtain ⟨ifs, whiles⟩ := here.counts
      obtain ⟨allIfs, allWhiles⟩ := Shift.across_cons line lines
      rw [ih.1, ih.2, ifs, whiles, allIfs, allWhiles, add_assoc, add_assoc]
      exact ⟨rfl, rfl⟩

theorem Shift.across_map : Shift.across (lines.map s.line) = Shift.across lines := by
  rw [Shift.across, Shift.across, List.length_map, List.countP_map, List.countP_map]
  rfl

end

/-! ## Numbers -/

namespace Numbered

variable {s : Shift} {line other : Line} {lines : List Line} {start startMoved count i : Nat}

theorem map_number_line : (lines.map s.line).map Line.number =
    (lines.map Line.number).map (· + s.number) := by
  rw [List.map_map, List.map_map]
  rfl

theorem forward (numbers : Numbered start lines) (moved : s.number = .ofNat count) :
    Numbered (start + count) (lines.map s.line) := by
  rw [Numbered, map_number_line, numbers, moved, List.length_map, Nat.add_comm start,
    ← List.map_add_range', List.map_map, List.map_map]
  refine List.map_congr_left fun i _ => ?_
  rw [Function.comp_apply, Function.comp_apply, Nat.add_comm, UInt32.ofNat_add]

theorem backward (numbers : Numbered (start + count) lines) (moved : s.number = -.ofNat count) :
    Numbered start (lines.map s.line) := by
  rw [Numbered, map_number_line, numbers, moved, List.length_map, Nat.add_comm start,
    ← List.map_add_range', List.map_map, List.map_map]
  refine List.map_congr_left fun i _ => ?_
  rw [Function.comp_apply, Function.comp_apply, Nat.add_comm, UInt32.ofNat_add]
  exact add_neg_cancel_right _ _

theorem number_toNat (numbers : Numbered start lines) (few : start + lines.length ≤ 2 ^ 32)
    (found : lines[i]? = some line) : line.number.toNat = start + i := by
  have inside : i < lines.length := (List.getElem?_eq_some_iff.mp found).1
  have listed : (lines.map Line.number)[i]? = some line.number := by
    rw [List.getElem?_map, found, Option.map_some]
  rw [numbers, List.getElem?_map, List.getElem?_range' inside, Option.map_some,
    Option.some_inj] at listed
  have size : UInt32.size = 2 ^ 32 := rfl
  rw [← listed, UInt32.toNat_ofNat_of_lt' (by omega), one_mul]

/-- Lines that are moved together keep their order, as long as there are numbers for them. -/
theorem lt_iff (numbers : Numbered start lines) (few : start + lines.length ≤ 2 ^ 32)
    (numbersMoved : Numbered startMoved (lines.map s.line))
    (fewMoved : startMoved + lines.length ≤ 2 ^ 32) (member : line ∈ lines)
    (memberOther : other ∈ lines) :
    (s.line line).number < (s.line other).number ↔ line.number < other.number := by
  obtain ⟨i, found⟩ := List.mem_iff_getElem?.mp member
  obtain ⟨j, foundOther⟩ := List.mem_iff_getElem?.mp memberOther
  have moved {k : Nat} {line : Line} (found : lines[k]? = some line) :
      (s.line line).number.toNat = startMoved + k := by
    apply numbersMoved.number_toNat (by rwa [List.length_map])
    rw [List.getElem?_map, found, Option.map_some]
  rw [UInt32.lt_iff_toNat_lt, UInt32.lt_iff_toNat_lt, moved found, moved foundOther,
    numbers.number_toNat few found, numbers.number_toNat few foundOther]
  omega

end Numbered

end SJava
