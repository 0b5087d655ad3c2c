import SJava.Proofs.Redeclaration

/-!
# Registration

To take in a line, the registry passes it, which moves the place that it reads the program at
(`Position.Passes`), and adds what the line declares to the tables (`Symbols.Adds`). Neither looks
at the other, so the lines that can be recorded are those that a walk along their scopes passes and
whose declarations are all new (`recorded_iff`). Since a run is settled by its lines
(`Recorded.unique`), texts can be fed exactly if their tokens can be recorded
(`Verifier.feedAll_ok_iff`).
-/

namespace SJava

/-! ## Positions -/

/-- Where a program is read: the scope of the next line, and the numbers of blocks so far. -/
structure Position where
  scope : Scope := .global
  ifCount : UInt32 := 0
  whileCount : UInt32 := 0

def Registry.position (registry : Registry) : Position :=
  ⟨registry.scope, registry.ifCount, registry.whileCount⟩

/-- How a line with a scope on it moves the position. -/
inductive Position.Passes (position : Position) (line : Line) : Position → Prop
  | header (kind : line.kind = .methodHeader) (scope : line.scope = position.scope) :
      Passes position line { position with scope := line.home }
  | ifHeader (kind : line.kind = .ifHeader) (scope : line.scope = position.scope) :
      Passes position line
        { position with
          scope := line.scope.child (.ifBlock (position.ifCount + 1))
          ifCount := position.ifCount + 1 }
  | whileHeader (kind : line.kind = .whileHeader) (scope : line.scope = position.scope) :
      Passes position line
        { position with
          scope := line.scope.child (.whileBlock (position.whileCount + 1))
          whileCount := position.whileCount + 1 }
  | closing {segment : Segment} (kind : line.kind = .closingBracket)
      (scope : position.scope = line.scope.child segment) :
      Passes position line { position with scope := line.scope }
  | plain (opens : line.kind.opens = false) (kind : line.kind ≠ .closingBracket)
      (scope : line.scope = position.scope) : Passes position line position

inductive Walk : Position → List Line → Position → Prop
  | nil {position : Position} : Walk position [] position
  | cons {first second last : Position} {line : Line} {lines : List Line}
      (here : first.Passes line second) (rest : Walk second lines last) :
      Walk first (line :: lines) last

section

variable {first last : Position} {line : Line} {lines more : List Line}

@[simp] theorem walk_nil : Walk first [] last ↔ first = last := by
  constructor
  · rintro ⟨⟩
    rfl
  · rintro rfl
    exact .nil

theorem walk_cons :
    Walk first (line :: lines) last ↔
      ∃ middle, first.Passes line middle ∧ Walk middle lines last := by
  constructor
  · rintro (_ | ⟨here, rest⟩)
    exact ⟨_, here, rest⟩
  · rintro ⟨_, here, rest⟩
    exact .cons here rest

theorem walk_append :
    Walk first (lines ++ more) last ↔
      ∃ middle, Walk first lines middle ∧ Walk middle more last := by
  induction lines generalizing first with
  | nil => simp
  | cons line lines ih =>
      simp only [List.cons_append, walk_cons, ih]
      constructor
      · rintro ⟨second, here, middle, front, back⟩
        exact ⟨middle, ⟨second, here, front⟩, back⟩
      · rintro ⟨middle, ⟨second, here, front⟩, back⟩
        exact ⟨second, here, middle, front, back⟩

theorem walk_singleton : Walk first [line] last ↔ first.Passes line last := by
  simp [walk_cons]

end

/-! ## Declarations -/

def Line.newMethods (line : Line) : List Method :=
  match line.kind with
  | .methodHeader =>
      match line.header? with
      | none => []
      | some (name, parameters) => [⟨name, parameters.map Parameter.type⟩]
  | _ => []

/-- Some symbols grow by what a line declares, which has to be new to them. -/
structure Symbols.Adds (symbols : Symbols) (line : Line) (next : Symbols) : Prop where
  vars : next.vars.records = symbols.vars.records ++ line.newVariables
  methods : next.methods.records = symbols.methods.records ++ line.newMethods
  newKeys : (line.newVariables.map Variable.key).Nodup ∧
    ∀ v ∈ line.newVariables, v.key ∉ symbols.vars.records.map Variable.key
  newNames : ∀ m ∈ line.newMethods, symbols.methods.find? m.name = none

theorem VariableTable.declareAll_eq_ok_iff {table next : VariableTable} {vs : List Variable} :
    table.declareAll vs = (next, .ok ()) ↔ next.records = table.records ++ vs ∧
      (vs.map Variable.key).Nodup ∧ ∀ v ∈ vs, v.key ∉ table.records.map Variable.key := by
  rw [← declareAll_ok_iff]
  constructor
  · intro declared
    exact ⟨declareAll_ok declared, congrArg Prod.snd declared⟩
  · rintro ⟨records, passed⟩
    have declared : table.declareAll vs = ((table.declareAll vs).1, .ok ()) := Prod.ext rfl passed
    have same : (table.declareAll vs).1.records = next.records := by
      rw [declareAll_ok declared, records]
    rw [declared, show (table.declareAll vs).1 = next from congrArg VariableTable.mk same]

theorem MethodTable.declare_eq_ok_iff {table next : MethodTable} {m : Method} :
    table.declare m = .ok next ↔
      next.records = table.records ++ [m] ∧ table.find? m.name = none := by
  constructor
  · intro declared
    exact (declare_ok declared).symm
  · rintro ⟨records, free⟩
    rw [declare, free]
    exact congrArg (fun records => Except.ok (MethodTable.mk records)) records.symm

namespace Line

variable {line : Line} {name : String} {parameters : List Parameter}

theorem newMethods_of_header (kind : line.kind = .methodHeader)
    (header : line.header? = some (name, parameters)) :
    line.newMethods = [⟨name, parameters.map Parameter.type⟩] := by
  rw [newMethods, kind, header]

theorem newVariables_of_header (kind : line.kind = .methodHeader)
    (header : line.header? = some (name, parameters)) :
    line.newVariables = parameters.map (·.toVariable line.number line.home) := by
  rw [newVariables, kind, header]

theorem newMethods_of_other (kind : line.kind ≠ .methodHeader) : line.newMethods = [] := by
  unfold newMethods
  split <;> first | contradiction | rfl

theorem newVariables_of_declares (kind : line.kind = .declaration ∨ line.kind = .finalDeclaration) :
    line.newVariables = line.declared := by
  rcases kind with kind | kind <;> rw [newVariables, kind]

theorem newVariables_of_other (notDeclaration : line.kind ≠ .declaration)
    (notFinal : line.kind ≠ .finalDeclaration) (notHeader : line.kind ≠ .methodHeader) :
    line.newVariables = [] := by
  unfold newVariables
  split <;> first | contradiction | rfl

end Line

/-! ## Taking in a line -/

section Takes

variable {registry next : Registry} {line : Line}

theorem Symbols.adds_nothing {symbols : Symbols} (vars : line.newVariables = [])
    (methods : line.newMethods = []) : symbols.Adds line symbols :=
  ⟨by simp [vars], by simp [methods], by simp [vars], by simp [methods]⟩

theorem Symbols.eq_of_adds_nothing {symbols next : Symbols} (adds : symbols.Adds line next)
    (vars : line.newVariables = []) (methods : line.newMethods = []) : next = symbols := by
  obtain ⟨⟨records⟩, ⟨methodRecords⟩⟩ := next
  have sameVars := adds.vars
  have sameMethods := adds.methods
  rw [vars, List.append_nil] at sameVars
  rw [methods, List.append_nil] at sameMethods
  cases sameVars
  cases sameMethods
  rfl

theorem Registry.Takes.passes (takes : registry.Takes line next) :
    registry.position.Passes line next.position := by
  cases takes with
  | declaration kind scope =>
      rcases kind with kind | kind <;> exact .plain (by rw [kind]; rfl) (by simp [kind]) scope
  | method kind scope header =>
      have entered : registry.position.Passes line _ := .header kind scope
      rwa [Line.home_of_header kind header, scope] at entered
  | ifBlock kind scope =>
      have entered : registry.position.Passes line _ := .ifHeader kind scope
      rwa [scope] at entered
  | whileBlock kind scope =>
      have entered : registry.position.Passes line _ := .whileHeader kind scope
      rwa [scope] at entered
  | close kind scope => exact .closing kind scope
  | other kind scope =>
      rcases kind with kind | kind | kind | kind <;>
        exact .plain (by rw [kind]; rfl) (by simp [kind]) scope

theorem Registry.Takes.adds (takes : registry.Takes line next) :
    registry.symbols.Adds line next.symbols := by
  cases takes with
  | declaration kind _ declared =>
      obtain ⟨records, fresh⟩ := VariableTable.declareAll_eq_ok_iff.mp declared
      have methods : line.newMethods = [] :=
        Line.newMethods_of_other (by rcases kind with kind | kind <;> simp [kind])
      rw [← Line.newVariables_of_declares kind] at records fresh
      exact ⟨records, by simp [methods], fresh, by simp [methods]⟩
  | method kind scope header new declared =>
      rw [← scope, ← Line.home_of_header kind header, ← Line.newVariables_of_header kind header]
        at declared
      obtain ⟨records, fresh⟩ := VariableTable.declareAll_eq_ok_iff.mp declared
      obtain ⟨methods, free⟩ := MethodTable.declare_eq_ok_iff.mp new
      rw [← Line.newMethods_of_header kind header] at methods
      refine ⟨records, methods, fresh, ?_⟩
      rw [Line.newMethods_of_header kind header]
      simpa using free
  | ifBlock kind | whileBlock kind | close kind =>
      exact Symbols.adds_nothing
        (Line.newVariables_of_other (by simp [kind]) (by simp [kind]) (by simp [kind]))
        (Line.newMethods_of_other (by simp [kind]))
  | other kind =>
      rcases kind with kind | kind | kind | kind <;>
        exact Symbols.adds_nothing
          (Line.newVariables_of_other (by simp [kind]) (by simp [kind]) (by simp [kind]))
          (Line.newMethods_of_other (by simp [kind]))

theorem Registry.eq_of_position {position : Position} (reached : next.position = position) :
    next = ⟨position.scope, position.ifCount, position.whileCount, next.symbols⟩ := by
  rw [← reached]
  rfl

theorem Registry.takes_of_passes (formed : line.WellFormed)
    (passes : registry.position.Passes line next.position)
    (adds : registry.symbols.Adds line next.symbols) : registry.Takes line next := by
  have unchanged (notDeclaration : line.kind ≠ .declaration)
      (notFinal : line.kind ≠ .finalDeclaration) (notHeader : line.kind ≠ .methodHeader) :
      next.symbols = registry.symbols :=
    Symbols.eq_of_adds_nothing adds
      (Line.newVariables_of_other notDeclaration notFinal notHeader)
      (Line.newMethods_of_other notHeader)
  generalize reached : next.position = position at passes
  rw [Registry.eq_of_position reached]
  cases passes with
  | header kind around =>
      obtain ⟨name, parameters, header⟩ := formed.header kind
      have home : line.home = registry.scope.child (.method name) := by
        rw [Line.home_of_header kind header, around]
        rfl
      have vars := VariableTable.declareAll_eq_ok_iff.mpr ⟨adds.vars, adds.newKeys⟩
      have methods := adds.methods
      have names := adds.newNames
      rw [Line.newVariables_of_header kind header, home] at vars
      rw [Line.newMethods_of_header kind header] at methods names
      rw [home]
      exact .method kind around header
        (MethodTable.declare_eq_ok_iff.mpr ⟨methods, names _ (List.mem_singleton_self _)⟩) vars
  | ifHeader kind around =>
      rw [unchanged (by simp [kind]) (by simp [kind]) (by simp [kind]), around]
      exact .ifBlock kind around
  | whileHeader kind around =>
      rw [unchanged (by simp [kind]) (by simp [kind]) (by simp [kind]), around]
      exact .whileBlock kind around
  | closing kind around =>
      rw [unchanged (by simp [kind]) (by simp [kind]) (by simp [kind])]
      exact .close kind around
  | plain opens kind around =>
      by_cases declares : line.kind = .declaration ∨ line.kind = .finalDeclaration
      · have vars := VariableTable.declareAll_eq_ok_iff.mpr ⟨adds.vars, adds.newKeys⟩
        have methods := adds.methods
        rw [Line.newVariables_of_declares declares] at vars
        rw [Line.newMethods_of_other (by rcases declares with kind | kind <;> simp [kind]),
          List.append_nil] at methods
        have same : next.symbols = { registry.symbols with vars := next.symbols.vars } :=
          congrArg (Symbols.mk next.symbols.vars) (congrArg MethodTable.mk methods)
        rw [same]
        exact .declaration declares around vars
      · rw [not_or] at declares
        have notHeader : line.kind ≠ .methodHeader := by
          rintro header
          simp [header, LineKind.opens] at opens
        rw [unchanged declares.1 declares.2 notHeader]
        refine .other ?_ around
        cases found : line.kind <;> simp_all [LineKind.opens]

/-- The registry takes in the line itself, whatever scope was on it. -/
theorem Registry.Takes.register_eq (takes : registry.Takes line next) :
    registry.register { line with scope := .global } = (next, .ok line) := by
  obtain ⟨number, kind, scope, tokens⟩ := line
  cases takes with
  | declaration isKind around declared =>
      cases around
      rcases isKind with isKind | isKind <;> cases isKind <;>
        simp only [register, declareVariables] <;> rw [declared] <;> rfl
  | method isKind around header fresh declared =>
      cases around
      cases isKind
      simp only [register, declareMethod, header, fresh, declared]
      rfl
  | ifBlock isKind around | whileBlock isKind around =>
      cases around
      cases isKind
      rfl
  | close isKind around =>
      cases isKind
      simp only [register, around, Scope.pop?_child]
  | other isKind around =>
      cases around
      rcases isKind with isKind | isKind | isKind | isKind <;> cases isKind <;> rfl

theorem Registry.Takes.unique {other : Registry} (takes : registry.Takes line next)
    (otherTakes : registry.Takes line other) : next = other := by
  have same := takes.register_eq.symm.trans otherTakes.register_eq
  exact (Prod.mk.inj same).1

end Takes

/-! ## Recorded lines -/

def Numbered (start : Nat) (lines : List Line) : Prop :=
  lines.map Line.number = (List.range' start lines.length).map UInt32.ofNat

theorem numbered_append {start : Nat} {lines more : List Line} :
    Numbered start (lines ++ more) ↔
      Numbered start lines ∧ Numbered (start + lines.length) more := by
  rw [Numbered, List.map_append, List.length_append, ← List.range'_append_1, List.map_append]
  exact ⟨fun same => List.append_inj same (by simp), fun ⟨front, back⟩ => by rw [front, back]⟩

/-- What is known of a registry that some lines have led to. -/
structure Registered (registry : Registry) (lines : List Line) : Prop where
  walk : Walk {} lines registry.position
  numbers : Numbered 1 lines
  formed : ∀ line ∈ lines, line.WellFormed
  vars : registry.symbols.vars.records = lines.flatMap Line.newVariables
  methods : registry.symbols.methods.records = lines.flatMap Line.newMethods
  keys : (registry.symbols.vars.records.map Variable.key).Nodup
  names : (registry.symbols.methods.records.map Method.name).Nodup

section

variable {registry other : Registry} {lines : List Line} {line : Line}

theorem MethodTable.find?_eq_none_iff {table : MethodTable} {name : String} :
    table.find? name = none ↔ name ∉ table.records.map Method.name := by
  simp [find?]

theorem Line.newMethods_names_nodup : (line.newMethods.map Method.name).Nodup := by
  unfold Line.newMethods
  split
  · split <;> simp
  · simp

theorem Recorded.registered (h : Recorded registry lines) : Registered registry lines := by
  induction h with
  | start => exact ⟨.nil, rfl, nofun, rfl, rfl, .nil, .nil⟩
  | @line registry next lines line before number form takes ih =>
      have adds := takes.adds
      exact
        { walk := walk_append.mpr ⟨_, ih.walk, walk_singleton.mpr takes.passes⟩
          numbers := by
            refine numbered_append.mpr ⟨ih.numbers, ?_⟩
            simp [Numbered, number, UInt32.add_comm]
          formed := by
            simp only [List.mem_append, List.mem_singleton]
            rintro line (member | rfl)
            · exact ih.formed line member
            · exact form
          vars := by rw [adds.vars, ih.vars, List.flatMap_append, List.flatMap_singleton]
          methods := by rw [adds.methods, ih.methods, List.flatMap_append, List.flatMap_singleton]
          keys := by
            rw [adds.vars, List.map_append, List.nodup_append']
            refine ⟨ih.keys, adds.newKeys.1, ?_⟩
            rw [List.disjoint_comm]
            exact List.forall_mem_map.mpr adds.newKeys.2
          names := by
            rw [adds.methods, List.map_append, List.nodup_append']
            refine ⟨ih.names, Line.newMethods_names_nodup, ?_⟩
            rw [List.disjoint_comm]
            refine List.forall_mem_map.mpr fun m member => ?_
            exact MethodTable.find?_eq_none_iff.mp (adds.newNames m member) }

theorem Registered.eq_start (h : Registered registry []) : registry = {} := by
  have position := walk_nil.mp h.walk
  rw [Registry.eq_of_position position.symm]
  have vars : registry.symbols.vars = {} := congrArg VariableTable.mk h.vars
  have methods : registry.symbols.methods = {} := congrArg MethodTable.mk h.methods
  rw [show registry.symbols = ⟨registry.symbols.vars, registry.symbols.methods⟩ from rfl, vars,
    methods]

theorem Registered.recorded (h : Registered registry lines) : Recorded registry lines := by
  induction lines using List.reverseRecOn generalizing registry with
  | nil =>
      rw [h.eq_start]
      exact .start
  | append_singleton lines line ih =>
      obtain ⟨middle, walked, last⟩ := walk_append.mp h.walk
      obtain ⟨numbers, number⟩ := numbered_append.mp h.numbers
      have formed := h.formed line (by simp)
      let before : Registry :=
        ⟨middle.scope, middle.ifCount, middle.whileCount,
          ⟨⟨lines.flatMap Line.newVariables⟩, ⟨lines.flatMap Line.newMethods⟩⟩⟩
      have vars := h.vars
      have methods := h.methods
      rw [List.flatMap_append, List.flatMap_singleton] at vars methods
      have keys := h.keys
      have names := h.names
      rw [vars, List.map_append, List.nodup_append'] at keys
      rw [methods, List.map_append, List.nodup_append'] at names
      have recorded : Recorded before lines :=
        ih
          { walk := walked
            numbers
            formed := fun line member => h.formed line (by simp [member])
            vars := rfl
            methods := rfl
            keys := keys.1
            names := names.1 }
      have adds : before.symbols.Adds line registry.symbols :=
        { vars
          methods
          newKeys := ⟨keys.2.1, fun v member known =>
            keys.2.2 known (List.mem_map_of_mem member)⟩
          newNames := fun m member => MethodTable.find?_eq_none_iff.mpr fun known =>
            names.2.2 known (List.mem_map_of_mem member) }
      refine .line recorded ?_ formed
        (Registry.takes_of_passes formed (walk_singleton.mp last) adds)
      simpa [Numbered, UInt32.add_comm] using number

/-- The lines that can be recorded are those that are well formed, numbered in order and on the way
of the scopes that they open and close, and that declare nothing twice. -/
theorem recorded_iff : Recorded registry lines ↔ Registered registry lines :=
  ⟨Recorded.registered, Registered.recorded⟩

theorem Recorded.unique (h : Recorded registry lines) (otherwise : Recorded other lines) :
    registry = other := by
  induction h generalizing other with
  | start => exact (Registered.eq_start otherwise.registered).symm
  | line before number form takes ih =>
      generalize same : _ ++ [_] = all at otherwise
      cases otherwise with
      | start => simp at same
      | line otherBefore _ _ otherTakes =>
          obtain ⟨rfl, last⟩ := List.append_inj' same rfl
          cases last
          cases ih otherBefore
          exact takes.unique otherTakes

end

/-! ## Feeding -/

/-- The texts that are not blank, each of which makes a line or fails. -/
def visible (texts : List String) : List String := texts.filter fun text => !isBlank text

/-- The tokens of the texts that are not blank. -/
def tokenLists (texts : List String) : List (List Token) :=
  (texts.filter fun text => !isBlank text).map tokens

section

variable {text : String} {texts more : List String} {verifier later : Verifier}

theorem tokenLists_append : tokenLists (texts ++ more) = tokenLists texts ++ tokenLists more := by
  simp [tokenLists]

theorem tokenLists_of_blank (blank : isBlank text = true) :
    tokenLists (text :: texts) = tokenLists texts := by
  simp [tokenLists, blank]

theorem tokenLists_of_not_blank (blank : isBlank text = false) :
    tokenLists (text :: texts) = tokens text :: tokenLists texts := by
  simp [tokenLists, blank]

namespace Verifier

theorem feedAll_cons_ok (fed : verifier.feed text = (later, .ok ())) :
    verifier.feedAll (text :: texts) = later.feedAll texts := by
  rw [feedAll, fed]

theorem feedAll_append_ok_iff {last : Verifier} :
    verifier.feedAll (texts ++ more) = .ok last ↔
      ∃ middle, verifier.feedAll texts = .ok middle ∧ middle.feedAll more = .ok last := by
  induction texts generalizing verifier with
  | nil => simp [feedAll]
  | cons text rest ih =>
      rw [List.cons_append, feedAll, feedAll]
      split
      · simp
      · exact ih

theorem feed_blank (blank : isBlank text = true) : verifier.feed text = (verifier, .ok ()) := by
  rw [feed, if_pos blank]

theorem feed_of_takes {line : Line} {next : Registry} (blank : isBlank text = false)
    (read : line.tokens = tokens text) (number : line.number = verifier.nextNumber)
    (formed : line.WellFormed) (takes : verifier.registry.Takes line next) :
    verifier.feed text = (⟨next, verifier.lines.push line⟩, .ok ()) := by
  obtain ⟨first, rest, shape, start⟩ := formed.begun
  have made : Line.ofTokens verifier.nextNumber (tokens text) =
      .ok { line with scope := .global } := by
    rw [← read, shape, Line.ofTokens, LineKind.ofFirst?_eq_some.mpr start]
    simp only [← number, ← shape]
  rw [feed, if_neg (by simp [blank]), Registry.enter, made]
  simp only [takes.register_eq, Line.located, formed.form]
  rfl

theorem feed_visible (visible : isBlank text = false)
    (fed : verifier.feed text = (later, .ok ())) :
    ∃ line, line.tokens = tokens text ∧ later.lines = verifier.lines.push line := by
  rw [feed, if_neg (by simp [visible])] at fed
  split at fed
  · cases fed
  · rename_i entered
    split at fed
    · cases fed
    · cases fed
      exact ⟨_, (Registry.enter_begun entered).2.1, rfl⟩

/-- The verifier keeps its lines and adds those that it reads from the texts. -/
theorem feedAll_grown (fed : verifier.feedAll texts = .ok later) :
    ∃ new, later.lines.toList = verifier.lines.toList ++ new ∧
      new.map Line.tokens = tokenLists texts := by
  induction texts generalizing verifier with
  | nil =>
      cases fed
      exact ⟨[], (List.append_nil _).symm, rfl⟩
  | cons text rest ih =>
      rw [feedAll] at fed
      split at fed
      · cases fed
      · rename_i next step
        obtain ⟨new, grown, read⟩ := ih fed
        cases blank : isBlank text with
        | true =>
            rw [feed_blank blank] at step
            cases step
            exact ⟨new, grown, by rw [tokenLists_of_blank blank, read]⟩
        | false =>
            obtain ⟨line, readLine, stored⟩ := feed_visible blank step
            refine ⟨line :: new, ?_, ?_⟩
            · rw [grown, stored, Array.toList_push, List.append_assoc, List.singleton_append]
            · rw [tokenLists_of_not_blank blank, List.map_cons, readLine, read]

theorem feedAll_of_recorded {new : List Line}
    (before : Recorded verifier.registry verifier.lines.toList)
    (after : Recorded later.registry later.lines.toList)
    (grown : later.lines.toList = verifier.lines.toList ++ new)
    (read : new.map Line.tokens = tokenLists texts) : verifier.feedAll texts = .ok later := by
  induction texts generalizing verifier new with
  | nil =>
      cases List.map_eq_nil_iff.mp read
      rw [List.append_nil] at grown
      rw [grown] at after
      obtain ⟨registry, lines⟩ := verifier
      obtain ⟨laterRegistry, laterLines⟩ := later
      cases before.unique after
      cases Array.toList_inj.mp grown
      rfl
  | cons text rest ih =>
      cases blank : isBlank text with
      | true =>
          rw [tokenLists_of_blank blank] at read
          rw [feedAll_cons_ok (feed_blank blank)]
          exact ih before grown read
      | false =>
          rw [tokenLists_of_not_blank blank] at read
          obtain ⟨line, new, rfl, readLine, read⟩ := List.map_eq_cons_iff.mp read
          have found : later.lines.toList[verifier.lines.size]? = some line := by simp [grown]
          obtain ⟨registry, next, recorded, takes, recordedNext⟩ := after.split found
          have front : later.lines.toList.take verifier.lines.size = verifier.lines.toList := by
            simp [grown]
          have grownFront : later.lines.toList.take (verifier.lines.size + 1) =
              (verifier.lines.push line).toList := by
            simp [grown, List.take_append]
          rw [front] at recorded
          rw [grownFront] at recordedNext
          cases before.unique recorded
          have number : line.number = verifier.nextNumber := after.number found
          have formed := after.wellFormed line (List.mem_of_getElem? found)
          rw [feedAll_cons_ok (feed_of_takes blank readLine number formed takes)]
          exact ih recordedNext (by simp [grown]) read

/-- Texts can be fed exactly if their tokens can be recorded. -/
theorem feedAll_ok_iff : feedAll {} texts = .ok verifier ↔
    Recorded verifier.registry verifier.lines.toList ∧
      verifier.lines.toList.map Line.tokens = tokenLists texts := by
  constructor
  · intro fed
    obtain ⟨new, grown, read⟩ := feedAll_grown fed
    exact ⟨recorded_of_feedAll fed, by rw [grown, ← read]; rfl⟩
  · rintro ⟨recorded, read⟩
    exact feedAll_of_recorded .start recorded rfl read

end Verifier

variable {lines : List Line} {registry : Registry}

theorem fed_of_recorded (recorded : Recorded registry lines)
    (read : lines.map Line.tokens = tokenLists texts) :
    Verifier.feedAll {} texts = .ok ⟨registry, lines.toArray⟩ :=
  Verifier.feedAll_ok_iff.mpr ⟨recorded, read⟩

theorem annotate_ok_iff : annotate texts = .ok lines ↔
    ∃ registry, Recorded registry lines ∧ lines.map Line.tokens = tokenLists texts := by
  rw [annotate, bind_eq_ok]
  constructor
  · rintro ⟨verifier, fed, ⟨⟩⟩
    exact ⟨verifier.registry, Verifier.feedAll_ok_iff.mp fed⟩
  · rintro ⟨registry, recorded, read⟩
    exact ⟨_, fed_of_recorded recorded read, rfl⟩

end

end SJava
