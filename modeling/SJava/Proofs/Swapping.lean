import SJava.Proofs.Finals
import SJava.Proofs.Shifting

/-!
# Swapped methods

Of two methods that follow each other at top level, each is shifted over the lines of the other when
they are swapped. Which lines move can be told from their scopes: those of a method begin with its
name (`IsMethod.roots`), and no others do (`Walk.avoids`). So the change of all scopes is one
relabelling of the program (`Swap.relabelling`), and the registry takes in the swapped lines with
the relabelled tables (`Swap.Fair.swapped`), in which the relabelled names stand for the same
(`Swap.Fair.lookup?_swapped`).
-/

namespace SJava

/-! ## Outermost blocks -/

namespace Scope

/-- The segment of the outermost block around a place. -/
def root? (scope : Scope) : Option Segment := scope.path.getLast?

variable {scope outer inner : Scope} {segment : Segment}

theorem root?_eq_none : scope.root? = none ↔ scope = .global := by
  rw [root?, List.getLast?_eq_none_iff, ← isGlobal_iff, isGlobal, List.isEmpty_iff]

theorem root?_child : (scope.child segment).root? = some (scope.root?.getD segment) :=
  List.getLast?_cons

theorem root?_child_of_inside (inside : scope ≠ .global) :
    (scope.child segment).root? = scope.root? := by
  obtain ⟨root, found⟩ := Option.ne_none_iff_exists'.mp (mt root?_eq_none.mp inside)
  rw [root?_child, found, Option.getD_some]

theorem root?_of_encloses (encloses : outer.encloses inner = true) (inside : outer ≠ .global) :
    inner.root? = outer.root? := by
  obtain ⟨front, path⟩ := List.isSuffixOf_iff_suffix.mp encloses
  obtain ⟨root, found⟩ := Option.ne_none_iff_exists'.mp (mt root?_eq_none.mp inside)
  rw [root?] at found
  rw [root?, root?, ← path, List.getLast?_append, found, Option.some_or]

end Scope

theorem Shift.root?_scope {s : Shift} {scope : Scope} {name : String} :
    (s.scope scope).root? = some (.method name) ↔ scope.root? = some (.method name) := by
  rw [Scope.root?, Scope.root?, Shift.scope, List.getLast?_map, Option.map_eq_some_iff]
  simp only [root_segment, exists_eq_right]

namespace Line

def methodName (line : Line) : String := (line.header?.map Prod.fst).getD ""

variable {line : Line}

theorem home_of_method (kind : line.kind = .methodHeader) :
    line.home = line.scope.child (.method line.methodName) := if_pos kind

theorem newMethods_names (formed : line.WellFormed) (kind : line.kind = .methodHeader) :
    line.newMethods.map Method.name = [line.methodName] := by
  obtain ⟨name, parameters, header⟩ := formed.header kind
  rw [newMethods_of_header kind header, methodName, header]
  rfl

theorem root?_home (inside : line.scope ≠ .global) : line.home.root? = line.scope.root? := by
  by_cases kind : line.kind = .methodHeader
  · rw [home_of_method kind, Scope.root?_child_of_inside inside]
  · rw [home_of_other kind]

theorem initialization_of_newVariable {v : Variable} {place : Initialization}
    (new : v ∈ line.newVariables) (initialized : v.initialization? = some place) :
    place = ⟨line.number, line.home⟩ := by
  rw [newVariables] at new
  split at new
  · rw [declared_uninitialized new] at initialized
    cases initialized
  · rw [declared_uninitialized new] at initialized
    cases initialized
  · split at new
    · cases new
    · obtain ⟨parameter, -, rfl⟩ := List.mem_map.mp new
      cases initialized
      rfl
  · cases new

/-- A line returns to top level. -/
def Ends (line : Line) : Prop := line.kind = .closingBracket ∧ line.scope = .global

instance (line : Line) : Decidable line.Ends := inferInstanceAs (Decidable (_ ∧ _))

end Line

section

variable {first last : Position} {line : Line} {lines : List Line} {name : String}

theorem Position.Passes.root? (passes : first.Passes line last) (inside : line.scope ≠ .global) :
    line.home.root? = first.scope.root? ∧ last.scope.root? = first.scope.root? := by
  rw [Line.root?_home inside]
  cases passes with
  | header kind scope =>
      rw [Line.root?_home inside, scope]
      exact ⟨rfl, rfl⟩
  | ifHeader kind scope | whileHeader kind scope =>
      rw [Scope.root?_child_of_inside inside, scope]
      exact ⟨rfl, rfl⟩
  | closing kind scope =>
      rw [scope, Scope.root?_child_of_inside inside]
      exact ⟨rfl, rfl⟩
  | plain opens kind scope =>
      rw [scope]
      exact ⟨rfl, rfl⟩

/-- Lines that do not return to top level stay in one outermost block. -/
theorem Walk.root? (walk : Walk first lines last) (inside : ∀ line ∈ lines, line.scope ≠ .global) :
    (∀ line ∈ lines, line.home.root? = first.scope.root?) ∧
      last.scope.root? = first.scope.root? := by
  induction walk with
  | nil => exact ⟨nofun, rfl⟩
  | cons here rest ih =>
      obtain ⟨insideHere, insideRest⟩ := List.forall_mem_cons.mp inside
      obtain ⟨home, next⟩ := here.root? insideHere
      obtain ⟨homes, stop⟩ := ih insideRest
      rw [next] at homes stop
      exact ⟨List.forall_mem_cons.mpr ⟨home, homes⟩, stop⟩

theorem Position.Passes.avoids (passes : first.Passes line last)
    (outside : first.scope.root? ≠ some (.method name))
    (other : line.kind = .methodHeader → line.methodName ≠ name) :
    line.home.root? ≠ some (.method name) ∧ last.scope.root? ≠ some (.method name) := by
  by_cases inside : line.scope = .global
  · cases passes with
    | header kind scope =>
        have apart : line.home.root? ≠ some (.method name) := by
          rw [Line.home_of_method kind, inside]
          simpa [Scope.root?, Scope.global, Scope.child] using other kind
        exact ⟨apart, apart⟩
    | ifHeader kind | whileHeader kind =>
        rw [Line.home_of_other (by simp [kind]), inside]
        simp [Scope.root?, Scope.global, Scope.child]
    | closing kind =>
        rw [Line.home_of_other (by simp [kind]), inside]
        simp [Scope.root?, Scope.global]
    | plain opens kind scope =>
        rw [Line.home_of_other (by rintro header; simp [header, LineKind.opens] at opens), scope]
        exact ⟨outside, outside⟩
  · obtain ⟨home, next⟩ := passes.root? inside
    rw [home, next]
    exact ⟨outside, outside⟩

/-- The body of a method is not entered but by its header. -/
theorem Walk.avoids (walk : Walk first lines last)
    (outside : first.scope.root? ≠ some (.method name))
    (others : ∀ line ∈ lines, line.kind = .methodHeader → line.methodName ≠ name) :
    ∀ line ∈ lines, line.home.root? ≠ some (.method name) := by
  induction walk with
  | nil => exact nofun
  | cons here rest ih =>
      obtain ⟨other, others⟩ := List.forall_mem_cons.mp others
      obtain ⟨home, next⟩ := here.avoids outside other
      exact List.forall_mem_cons.mpr ⟨home, ih next others⟩

theorem Walk.eq_position (walk : Walk first lines last) (outside : first.scope = .global)
    (outsideAgain : last.scope = .global) : last = (Shift.across lines).position first := by
  obtain ⟨ifs, whiles⟩ := walk.counts
  obtain ⟨scope, ifCount, whileCount⟩ := last
  rw [Shift.position, outside, ← ifs, ← whiles]
  exact congrArg (Position.mk · ifCount whileCount) outsideAgain

end

/-! ## Methods -/

/-- Lines are one method at top level, from its header to the bracket that closes it. -/
structure IsMethod (lines : List Line) : Prop where
  begins : ∃ header ∈ lines.head?, header.kind = .methodHeader ∧ header.scope = .global
  ends : ∃ closing ∈ lines.getLast?, closing.Ends
  inside : ∀ line ∈ lines.tail.dropLast, line.scope ≠ .global

instance (lines : List Line) : Decidable (IsMethod lines) :=
  decidable_of_iff (_ ∧ _ ∧ _)
    ⟨fun ⟨begins, ends, inside⟩ => ⟨begins, ends, inside⟩,
      fun ⟨begins, ends, inside⟩ => ⟨begins, ends, inside⟩⟩

def methodNameOf (lines : List Line) : String := (lines.head?.map Line.methodName).getD ""

section

variable {first last : Position} {lines front back : List Line} {s : Shift}
  {registry : Registry}

theorem IsMethod.shape (method : IsMethod lines) :
    ∃ header body closing, lines = header :: (body ++ [closing]) ∧
      header.kind = .methodHeader ∧ header.scope = .global ∧ closing.Ends ∧
      ∀ line ∈ body, line.scope ≠ .global := by
  obtain ⟨header, start, kind, outside⟩ := method.begins
  obtain ⟨closing, stop, ends⟩ := method.ends
  have inside := method.inside
  obtain ⟨rest, rfl⟩ := List.head?_eq_some_iff.mp start
  rcases List.eq_nil_or_concat rest with rfl | ⟨body, last, rfl⟩
  · cases stop
    exact absurd (kind.symm.trans ends.1) nofun
  · rw [List.concat_eq_append] at inside stop ⊢
    rw [← List.cons_append, List.getLast?_concat, Option.mem_some_iff] at stop
    rw [List.tail_cons, List.dropLast_concat] at inside
    exact ⟨header, body, last, rfl, kind, outside, stop ▸ ends, inside⟩

theorem IsMethod.roots (method : IsMethod lines) (walk : Walk first lines last) :
    first.scope = .global ∧ last.scope = .global ∧
      ∀ line ∈ lines, line.Ends ∨ line.home.root? = some (.method (methodNameOf lines)) := by
  obtain ⟨header, body, closing, rfl, kind, outside, ends, inside⟩ := method.shape
  obtain ⟨entered, here, rest⟩ := walk_cons.mp walk
  obtain ⟨left, through, there⟩ := walk_append.mp rest
  have root : header.home.root? = some (.method header.methodName) := by
    rw [Line.home_of_method kind, outside]
    rfl
  have start : entered.scope = header.home ∧ header.scope = first.scope := by
    cases here with
    | header _ scope => exact ⟨rfl, scope⟩
    | plain opens => simp [kind, LineKind.opens] at opens
    | ifHeader other | whileHeader other | closing other => simp [kind] at other
  have stop : last.scope = closing.scope := by
    cases walk_singleton.mp there with
    | closing => rfl
    | plain _ other => exact absurd ends.1 other
    | header other | ifHeader other | whileHeader other => simp [ends.1] at other
  have homes := (through.root? inside).1
  rw [start.1, root] at homes
  refine ⟨start.2.symm.trans outside, stop.trans ends.2, ?_⟩
  simp only [List.mem_cons, List.mem_append, List.not_mem_nil, or_false]
  rintro line (rfl | member | rfl)
  · exact .inr root
  · exact .inr (homes line member)
  · exact .inl ends

theorem Shift.ends_line {line : Line} : (s.line line).Ends ↔ line.Ends :=
  and_congr_right fun _ => scope_eq_global

theorem IsMethod.shifted (method : IsMethod lines) : IsMethod (lines.map s.line) := by
  obtain ⟨header, start, kind, outside⟩ := method.begins
  obtain ⟨closing, stop, ends⟩ := method.ends
  exact
    { begins := ⟨s.line header, by rw [List.head?_map]; exact Option.mem_map_of_mem s.line start,
        kind, Shift.scope_eq_global.mpr outside⟩
      ends := ⟨s.line closing, by rw [List.getLast?_map]; exact Option.mem_map_of_mem s.line stop,
        Shift.ends_line.mpr ends⟩
      inside := by
        rw [← List.map_tail, ← List.map_dropLast]
        exact List.forall_mem_map.mpr fun line member =>
          mt Shift.scope_eq_global.mp (method.inside line member) }

theorem Registered.otherNames (h : Registered registry (front ++ (lines ++ back)))
    (method : IsMethod lines) :
    ∀ line ∈ front ++ back, line.kind = .methodHeader → line.methodName ≠ methodNameOf lines := by
  obtain ⟨header, body, closing, rfl, kind, -⟩ := method.shape
  intro line member other same
  have formed {line : Line} (member : line = header ∨ line ∈ front ++ back) : line.WellFormed :=
    h.formed line (by simp only [List.mem_append, List.mem_cons] at member ⊢; tauto)
  have names := h.names
  rw [h.methods, List.map_flatMap, List.cons_append, (List.perm_middle.flatMap_right _).nodup_iff,
    List.flatMap_cons, List.nodup_append', Line.newMethods_names (formed (.inl rfl)) kind] at names
  refine names.2.2 (List.mem_singleton_self _) (List.mem_flatMap.mpr ⟨line, ?_, ?_⟩)
  · simp only [List.mem_append] at member ⊢
    tauto
  · rw [Line.newMethods_names (formed (.inr member)) other, same]
    exact List.mem_singleton_self _

end

/-! ## Swaps -/

/-- The lines of a program, with two methods of it that follow each other. -/
structure Swap where
  before : List Line
  first : List Line
  second : List Line
  after : List Line

namespace Swap

def lines (s : Swap) : List Line := s.before ++ (s.first ++ (s.second ++ s.after))

/-- The lines once the methods are swapped, each shifted over the other. -/
def swapped (s : Swap) : Swap :=
  { before := s.before
    first := s.second.map (-Shift.across s.first).line
    second := s.first.map (Shift.across s.second).line
    after := s.after }

/-- How far the lines in a scope are moved. -/
def shift (s : Swap) (scope : Scope) : Shift :=
  if scope.root? = some (.method (methodNameOf s.first)) then .across s.second
  else if scope.root? = some (.method (methodNameOf s.second)) then -.across s.first
  else 0

def scope (s : Swap) (scope : Scope) : Scope := (s.shift scope).scope scope

def place (s : Swap) (place : Initialization) : Initialization :=
  (s.shift place.scope).place place

theorem swapped_swapped (s : Swap) : s.swapped.swapped = s := by
  obtain ⟨before, first, second, after⟩ := s
  have forth : (-Shift.across second).line ∘ (Shift.across second).line = id :=
    funext Shift.line_neg
  have back : (Shift.across first).line ∘ (-Shift.across first).line = id :=
    funext Shift.neg_neg_line
  simp only [swapped, Shift.across_map, List.map_map, forth, back, List.map_id]

variable {s : Swap} {scope inner outer : Scope} {name : String} {line : Line} {t : Shift}

theorem shift_of_root (same : outer.root? = inner.root?) : s.shift outer = s.shift inner := by
  rw [shift, shift, same]

theorem shift_scope : s.shift (t.scope scope) = s.shift scope := by
  simp only [shift, Shift.root?_scope]

theorem scope_global : s.scope .global = .global := rfl

theorem scope_injective : Function.Injective s.scope := by
  intro first second same
  have keeps (scope : Scope) : s.shift (s.scope scope) = s.shift scope := shift_scope
  have shifts : s.shift first = s.shift second := by rw [← keeps first, same, keeps second]
  rw [scope, scope, shifts] at same
  rw [← Shift.scope_neg (s := s.shift second) first, same, Shift.scope_neg]

theorem scope_eq_global : s.scope scope = .global ↔ scope = .global :=
  scope_injective.eq_iff' scope_global

theorem scope_enclosing : (s.scope inner).enclosing = inner.enclosing.map s.scope := by
  rw [scope, Scope.enclosing, Shift.scope, Scope.outwards_map]
  refine List.map_congr_left fun outer member => ?_
  by_cases outside : outer = .global
  · rw [outside]
    rfl
  · rw [scope, ← shift_of_root (Scope.root?_of_encloses (Scope.mem_enclosing.mp member) outside)]
    rfl

/-- The scopes of the program before and after the methods are swapped. -/
def relabelling (s : Swap) : Relabelling :=
  { name := id
    scope := s.scope
    place := s.place
    name_injective := Function.injective_id
    scope_injective := scope_injective
    enclosing := fun _ => scope_enclosing }

/-! ## Moved lines -/

def reordered (s : Swap) : List Line := s.before ++ (s.second ++ (s.first ++ s.after))

def write (s : Swap) (write : Write) : Write := (write.1, s.place write.2)

/-- The registry that the swapped lines lead to. -/
def registry (s : Swap) (registry : Registry) : Registry :=
  { registry with
    symbols :=
      { vars := ⟨s.swapped.lines.flatMap Line.newVariables⟩
        methods := ⟨s.swapped.lines.flatMap Line.newMethods⟩ } }

/-- A line is moved as its scope says, unless it has left the block that it is moved with. -/
def Moves (s : Swap) (t : Shift) (line : Line) : Prop := line.Ends ∨ s.shift line.home = t

theorem reordered_perm : s.reordered.Perm s.lines :=
  (List.perm_append_comm_assoc s.second s.first s.after).append_left s.before

namespace Moves

variable {v : Variable}

theorem scope_eq (moves : s.Moves t line) : (t.line line).scope = s.scope line.scope := by
  show t.scope line.scope = s.scope line.scope
  by_cases outside : line.scope = .global
  · rw [outside]
    rfl
  · rcases moves with ends | rfl
    · exact absurd ends.2 outside
    · rw [shift_of_root (Line.root?_home outside)]
      rfl

theorem shift_eq (moves : s.Moves t line) (notHeader : line.kind ≠ .methodHeader)
    (notClosing : line.kind ≠ .closingBracket) : s.shift line.scope = t := by
  rcases moves with ends | same
  · exact absurd ends.1 notClosing
  · rwa [Line.home_of_other notHeader] at same

theorem newVariables (moves : s.Moves t line) (formed : line.WellFormed) :
    (t.line line).newVariables = line.newVariables.map s.relabelling.record := by
  rcases moves with ends | rfl
  · have kind := ends.1
    have none : line.newVariables = [] :=
      Line.newVariables_of_other (by simp [kind]) (by simp [kind]) (by simp [kind])
    rw [Shift.newVariables_line, none, List.map_nil, List.map_nil]
  · rw [Shift.newVariables_line]
    refine List.map_congr_left fun v new => ?_
    have scope := (Line.key_of_newVariable formed new).2
    have place : v.initialization?.map (s.shift line.home).place =
        v.initialization?.map s.place := by
      refine Option.map_congr fun place initialized => ?_
      rw [Swap.place, Line.initialization_of_newVariable new initialized]
    rw [Shift.record, Relabelling.record, place, ← scope]
    rfl

theorem writes (moves : s.Moves t line) : (t.line line).writes = line.writes.map s.write := by
  have written : (t.line line).written = line.written := rfl
  rw [Line.writes, Line.writes, written, List.map_map]
  cases assigns : line.kind.assigns with
  | false =>
      have none : line.written = [] := by simp [Line.written, assigns]
      rw [none, List.map_nil, List.map_nil]
  | true =>
      refine List.map_congr_left fun name _ => ?_
      have shift : s.shift line.scope = t :=
        moves.shift_eq (by rintro kind; simp [kind, LineKind.assigns] at assigns)
          (by rintro kind; simp [kind, LineKind.assigns] at assigns)
      rw [Function.comp_apply, write, Swap.place, shift]
      rfl

end Moves

/-- The methods of a swap are methods of a program that can be taken in. -/
structure Fair (s : Swap) (registry : Registry) : Prop where
  registered : Registered registry s.lines
  few : s.lines.length < 2 ^ 32
  first : IsMethod s.first
  second : IsMethod s.second

namespace Fair

variable {registry : Registry}

theorem walks (fair : s.Fair registry) :
    ∃ start middle stop, Walk {} s.before start ∧ Walk start s.first middle ∧
      Walk middle s.second stop ∧ Walk stop s.after registry.position := by
  have walk := fair.registered.walk
  simp only [lines, walk_append] at walk
  obtain ⟨start, before, middle, first, stop, second, after⟩ := walk
  exact ⟨start, middle, stop, before, first, second, after⟩

theorem namesOfFirst (fair : s.Fair registry) :
    ∀ line ∈ s.before ++ (s.second ++ s.after), line.kind = .methodHeader →
      line.methodName ≠ methodNameOf s.first :=
  fair.registered.otherNames fair.first

theorem namesOfSecond (fair : s.Fair registry) :
    ∀ line ∈ s.before ++ s.first ++ s.after, line.kind = .methodHeader →
      line.methodName ≠ methodNameOf s.second := by
  have registered := fair.registered
  rw [lines, ← List.append_assoc] at registered
  exact registered.otherNames fair.second

theorem apart (fair : s.Fair registry) : methodNameOf s.second ≠ methodNameOf s.first := by
  have other := fair.namesOfFirst
  obtain ⟨header, body, closing, shape, kind, -⟩ := fair.second.shape
  have named : methodNameOf s.second = header.methodName := by
    rw [shape]
    rfl
  rw [named]
  exact other header (by simp [shape]) kind

theorem not_both (fair : s.Fair registry)
    (first : scope.root? = some (.method (methodNameOf s.first)))
    (second : scope.root? = some (.method (methodNameOf s.second))) : False := by
  rw [first, Option.some_inj, Segment.method.injEq] at second
  exact fair.apart second.symm

theorem roots (fair : s.Fair registry) :
    (∀ line ∈ s.before ++ s.after, line.home.root? ≠ some (.method (methodNameOf s.first)) ∧
      line.home.root? ≠ some (.method (methodNameOf s.second))) ∧
    (∀ line ∈ s.first, line.Ends ∨ line.home.root? = some (.method (methodNameOf s.first))) ∧
    ∀ line ∈ s.second, line.Ends ∨ line.home.root? = some (.method (methodNameOf s.second)) := by
  obtain ⟨start, middle, stop, before, first, second, after⟩ := fair.walks
  have inFirst := (fair.first.roots first).2.2
  obtain ⟨-, left, inSecond⟩ := fair.second.roots second
  refine ⟨?_, inFirst, inSecond⟩
  have avoids {name : String} (others : ∀ line ∈ s.before ++ s.after,
      line.kind = .methodHeader → line.methodName ≠ name) :
      ∀ line ∈ s.before ++ s.after, line.home.root? ≠ some (.method name) := by
    rw [List.forall_mem_append] at others ⊢
    exact ⟨before.avoids nofun others.1,
      after.avoids (by rw [left]; exact nofun) others.2⟩
  intro line member
  constructor
  · refine avoids (fun line member => fair.namesOfFirst line ?_) line member
    simp only [List.mem_append] at member ⊢
    tauto
  · refine avoids (fun line member => fair.namesOfSecond line ?_) line member
    simp only [List.mem_append] at member ⊢
    tauto

theorem moves (fair : s.Fair registry) :
    (∀ line ∈ s.before ++ s.after, s.Moves 0 line) ∧
      (∀ line ∈ s.first, s.Moves (.across s.second) line) ∧
      ∀ line ∈ s.second, s.Moves (-.across s.first) line := by
  obtain ⟨outside, inFirst, inSecond⟩ := fair.roots
  refine ⟨fun line member => .inr ?_, fun line member => (inFirst line member).imp_right ?_,
    fun line member => (inSecond line member).imp_right ?_⟩
  · obtain ⟨notFirst, notSecond⟩ := outside line member
    rw [shift, if_neg notFirst, if_neg notSecond]
  · intro root
    rw [shift, if_pos root]
  · intro root
    rw [shift, if_neg fun rootFirst => fair.not_both rootFirst root, if_pos root]

theorem mem_swapped (fair : s.Fair registry) (member : line ∈ s.swapped.lines) :
    ∃ original ∈ s.lines, ∃ t, s.Moves t original ∧ line = t.line original := by
  obtain ⟨outside, inFirst, inSecond⟩ := fair.moves
  simp only [lines, swapped, List.mem_append, List.mem_map] at member ⊢
  rcases member with member | ⟨original, member, rfl⟩ | ⟨original, member, rfl⟩ | member
  · exact ⟨line, .inl member, 0, outside line (by simp [member]), (Shift.line_zero line).symm⟩
  · exact ⟨original, by tauto, _, inSecond original member, rfl⟩
  · exact ⟨original, by tauto, _, inFirst original member, rfl⟩
  · exact ⟨line, by tauto, 0, outside line (by simp [member]), (Shift.line_zero line).symm⟩

theorem flatMap_swapped {α : Type} {f : Line → List α} {g : α → α} (fair : s.Fair registry)
    (moved : ∀ line ∈ s.lines, ∀ t, s.Moves t line → f (t.line line) = (f line).map g) :
    s.swapped.lines.flatMap f = (s.reordered.flatMap f).map g := by
  obtain ⟨outside, inFirst, inSecond⟩ := fair.moves
  have piece (t : Shift) (lines : List Line) (inside : ∀ line ∈ lines, line ∈ s.lines)
      (moves : ∀ line ∈ lines, s.Moves t line) :
      (lines.map t.line).flatMap f = (lines.flatMap f).map g := by
    rw [List.flatMap_map, List.map_flatMap]
    exact List.flatMap_congr fun line member =>
      moved line (inside line member) t (moves line member)
  have still (lines : List Line) : lines.map (0 : Shift).line = lines := by
    rw [funext Shift.line_zero, List.map_id']
  have before := piece 0 s.before (by simp +contextual [lines])
    fun line member => outside line (by simp [member])
  have after := piece 0 s.after (by simp +contextual [lines])
    fun line member => outside line (by simp [member])
  rw [still] at before after
  have first := piece _ s.first (by simp +contextual [lines]) inFirst
  have second := piece _ s.second (by simp +contextual [lines]) inSecond
  simp only [lines, swapped, reordered, List.flatMap_append, List.map_append]
  rw [first, second, ← before, ← after]

/-! ## The registry of the swapped lines -/

theorem numbers (fair : s.Fair registry) :
    Numbered 1 s.before ∧ Numbered (1 + s.before.length) s.first ∧
      Numbered (1 + s.before.length + s.first.length) s.second ∧
      Numbered (1 + s.before.length + s.first.length + s.second.length) s.after := by
  have numbers := fair.registered.numbers
  simpa only [lines, numbered_append] using numbers

theorem walk_swapped (fair : s.Fair registry) : Walk {} s.swapped.lines registry.position := by
  obtain ⟨start, middle, stop, before, first, second, after⟩ := fair.walks
  obtain ⟨atStart, atMiddle, -⟩ := fair.first.roots first
  obtain ⟨-, atStop, -⟩ := fair.second.roots second
  -- The second method is entered where the first was, and left where the first is entered now.
  have secondFirst := second.shifted (s := -.across s.first)
  rw [first.eq_position atStart atMiddle, Shift.position_neg] at secondFirst
  have firstSecond := first.shifted (s := .across s.second)
  rw [← second.eq_position atMiddle atStop, ← Shift.across_map (s := -.across s.first),
    ← secondFirst.eq_position atStart (congrArg (-Shift.across s.first).scope atStop)]
    at firstSecond
  rw [Shift.across_map] at firstSecond
  exact walk_append.mpr ⟨start, before, walk_append.mpr ⟨_, secondFirst,
    walk_append.mpr ⟨stop, firstSecond, after⟩⟩⟩

theorem vars_swapped (fair : s.Fair registry) :
    (s.registry registry).symbols.vars.records.Perm
      (registry.symbols.vars.map s.relabelling.record).records := by
  have moved : (s.registry registry).symbols.vars.records =
      (s.reordered.flatMap Line.newVariables).map s.relabelling.record :=
    fair.flatMap_swapped fun line member t moves =>
      moves.newVariables (fair.registered.formed line member)
  rw [moved, VariableTable.map, fair.registered.vars]
  exact (reordered_perm.flatMap_right _).map _

theorem methods_swapped (fair : s.Fair registry) :
    (s.registry registry).symbols.methods.records.Perm registry.symbols.methods.records := by
  have moved : (s.registry registry).symbols.methods.records =
      (s.reordered.flatMap Line.newMethods).map id :=
    fair.flatMap_swapped fun line _ t _ => by rw [Shift.newMethods_line, List.map_id]
  rw [moved, List.map_id, fair.registered.methods]
  exact reordered_perm.flatMap_right _

theorem swapped (fair : s.Fair registry) : s.swapped.Fair (s.registry registry) := by
  obtain ⟨before, first, second, after⟩ := fair.numbers
  have length : s.swapped.lines.length = s.lines.length := by
    simp only [lines, Swap.swapped, List.length_append, List.length_map]
    omega
  exact
    { registered :=
        { walk := fair.walk_swapped
          numbers := by
            have secondFirst := second.backward (s := -.across s.first) rfl
            have firstSecond := first.forward (s := .across s.second) rfl
            rw [Nat.add_right_comm] at after
            simp only [lines, Swap.swapped, numbered_append, List.length_map]
            exact ⟨before, secondFirst, firstSecond, after⟩
          formed := by
            intro line member
            obtain ⟨original, inside, t, -, rfl⟩ := fair.mem_swapped member
            exact Shift.wellFormed_line (fair.registered.formed original inside)
          vars := rfl
          methods := rfl
          keys := by
            have keys : (registry.symbols.vars.map s.relabelling.record).records.map Variable.key =
                (registry.symbols.vars.records.map Variable.key).map (Prod.map id s.scope) := by
              rw [VariableTable.map, List.map_map, List.map_map]
              rfl
            rw [(fair.vars_swapped.map _).nodup_iff, keys]
            exact fair.registered.keys.map (Function.injective_id.prodMap scope_injective)
          names := by
            rw [(fair.methods_swapped.map _).nodup_iff]
            exact fair.registered.names }
      few := by rw [length]; exact fair.few
      first := fair.second.shifted
      second := fair.first.shifted }

/-! ## Lookups -/

theorem find?_method_swapped (fair : s.Fair registry) :
    (s.registry registry).symbols.methods.find? name = registry.symbols.methods.find? name :=
  MethodTable.find?_of_perm fair.methods_swapped fair.registered.names

theorem lookup?_swapped (fair : s.Fair registry) :
    (s.registry registry).symbols.vars.lookup? name (s.scope scope) =
      (registry.symbols.vars.lookup? name scope).map s.relabelling.record := by
  have keys := (fair.vars_swapped.map _).nodup_iff.mp fair.swapped.registered.keys
  rw [VariableTable.lookup?_of_perm fair.vars_swapped keys]
  exact s.relabelling.lookup?_relabelled

end Fair

end Swap

end SJava
