import SJava.Proofs.Balance
import SJava.Proofs.Blocks
import SJava.Proofs.Faults

/-!
# Redeclarations

A name can be declared once in each block, and a method once in a program. The tables compare names
and scopes. Since no block is entered twice by the same scope (`Verifier.entered`), this is to
compare names and blocks. A line declares its variables in the block that it lies directly in, and a
header declares them in the one that it opens (`declaringBlock?`).
-/

namespace SJava

/-- The scopes that are entered when lines are fed, each by a line that opens a block. -/
def Verifier.entered (verifier : Verifier) : List String → List Scope
  | [] => []
  | text :: rest =>
      let next := (verifier.feed text).1
      if verifier.lines.size < next.lines.size ∧ next.lines.back?.any (·.kind.opens) then
        next.registry.scope :: next.entered rest
      else next.entered rest

namespace Line

/-- The names of the variables that a line declares, by the roles of its tokens. -/
def newNames (line : Line) : List String :=
  match line.kind with
  | .declaration | .finalDeclaration | .methodHeader => (playing .name line.roles).map Token.name
  | _ => []

/-- The scope that a line declares variables in. -/
def home (line : Line) : Scope :=
  if line.kind = .methodHeader then
    line.scope.child (.method ((line.header?.map Prod.fst).getD ""))
  else line.scope

def newVariables (line : Line) : List Variable :=
  match line.kind with
  | .declaration | .finalDeclaration => line.declared
  | .methodHeader =>
      match line.header? with
      | none => []
      | some (_, parameters) => parameters.map (·.toVariable line.number line.home)
  | _ => []

end Line

/-- The blocks that the line at a place declares variables in, innermost first. -/
def declaringBlocks (lines : List Line) (place : Nat) : List Nat :=
  if lines[place]?.any (·.kind == .methodHeader) then place :: blocksAround lines place
  else blocksAround lines place

def declaringBlock? (lines : List Line) (place : Nat) : Option Nat :=
  (declaringBlocks lines place).head?

/-- A line is the header of a method that has been declared before. -/
def MethodTaken (lines : List Line) (line : Line) : Prop :=
  line.kind = .methodHeader ∧ ∃ header ∈ lines, header.kind = .methodHeader ∧
    header.tokens[1]?.map Token.name = line.tokens[1]?.map Token.name

/-- A line that comes next declares a name that an earlier line has declared in the same block. -/
def VariableTaken (lines : List Line) (line : Line) : Prop :=
  ∃ name ∈ line.newNames, ∃ place earlier, lines[place]? = some earlier ∧
    name ∈ earlier.newNames ∧
    declaringBlock? (lines ++ [line]) place = declaringBlock? (lines ++ [line]) lines.length

def Verifier.FailsWith (verifier : Verifier) (text : String) (kind : FaultKind) : Prop :=
  ∃ fault, (verifier.feed text).2 = .error fault ∧ fault.diagnostic.kind = kind

def Registry.FailsWith (registry : Registry) (line : Line) (kind : FaultKind) : Prop :=
  ∃ cause, (registry.register line).2 = .error cause ∧ cause.kind = kind

/-! ## Entered scopes -/

section Entered

variable {registry : Registry} {lines : List Line} {line : Line} {place : Nat}

/-- The scope of the body of the block that the line at a place opens. -/
def bodyAt (lines : List Line) (place : Nat) : Scope :=
  ⟨segmentAt lines place :: (openBlocks (lines.take place)).map (segmentAt lines)⟩

def bodies (lines : List Line) : List Scope :=
  ((List.range lines.length).filter fun place => lines[place]?.any (·.kind.opens)).map
    (bodyAt lines)

theorem bodyAt_append (inside : place < lines.length) :
    bodyAt (lines ++ [line]) place = bodyAt lines place := by
  have opened : ∀ block ∈ openBlocks (lines.take place), block < lines.length := by
    intro block member
    have before := openBlocks_lt member
    rw [List.length_take] at before
    omega
  rw [bodyAt, bodyAt, segmentAt_append inside,
    List.take_append_of_le_length (Nat.le_of_lt inside), map_segmentAt_append opened]

theorem bodies_append (h : Recorded registry (lines ++ [line])) :
    bodies (lines ++ [line]) =
      bodies lines ++ if line.kind.opens then [registry.scope] else [] := by
  have earlier : ((List.range lines.length).filter fun place =>
        (lines ++ [line])[place]?.any (·.kind.opens)).map (bodyAt (lines ++ [line])) =
      bodies lines := by
    have same : (List.range lines.length).filter (fun place =>
          (lines ++ [line])[place]?.any (·.kind.opens)) =
        (List.range lines.length).filter fun place => lines[place]?.any (·.kind.opens) := by
      refine List.filter_congr fun place member => ?_
      rw [List.getElem?_append_left (List.mem_range.mp member)]
    rw [same]
    refine List.map_congr_left fun place member => bodyAt_append ?_
    exact List.mem_range.mp (List.mem_filter.mp member).1
  rw [bodies, List.length_append, List.length_singleton, List.range_succ, List.filter_append,
    List.map_append, earlier]
  congr 1
  split
  · rename_i opens
    have path := h.path
    rw [openBlocks_append, blocksAfter, if_pos opens] at path
    have body : bodyAt (lines ++ [line]) lines.length = registry.scope := by
      rw [bodyAt, List.take_left]
      exact congrArg Scope.mk path.symm
    simp [opens, body]
  · rename_i opens
    simp [opens]

theorem Recorded.bodies_nodup (h : Recorded registry lines) (few : lines.length < 2 ^ 32) :
    (bodies lines).Nodup := by
  refine List.Nodup.map_on ?_ (List.nodup_range.filter _)
  intro first inFirst second inSecond same
  obtain ⟨opener, found, opens⟩ := (Option.any_eq_true _ _).mp (List.mem_filter.mp inFirst).2
  obtain ⟨other, foundOther, opensOther⟩ :=
    (Option.any_eq_true _ _).mp (List.mem_filter.mp inSecond).2
  have segments := (List.cons.inj (congrArg Scope.path same)).1
  exact h.segmentAt_inj few found foundOther opens opensOther segments

theorem Recorded.length_bodies (h : Recorded registry lines) :
    (bodies lines).length = openers lines := by
  induction h with
  | start => rfl
  | @line registry next lines line before number form takes ih =>
      rw [bodies_append (before.line number form takes), List.length_append, ih, openers, openers,
        List.countP_append, List.countP_singleton]
      split <;> rfl

theorem Verifier.bodies_entered {verifier later : Verifier} {texts : List String}
    (recorded : Recorded verifier.registry verifier.lines.toList)
    (fed : verifier.feedAll texts = .ok later) :
    bodies later.lines.toList = bodies verifier.lines.toList ++ verifier.entered texts := by
  induction texts generalizing verifier with
  | nil =>
      cases fed
      rw [entered, List.append_nil]
  | cons text rest ih =>
      rw [feedAll] at fed
      split at fed
      · cases fed
      · rename_i next step
        have after := feed_recorded recorded step
        rw [ih after fed, entered, step]
        rcases feed_ok step with rfl | ⟨line, -, -, stored⟩
        · simp
        · rw [stored, Array.toList_push] at after ⊢
          rw [bodies_append after]
          by_cases opens : line.kind.opens = true <;> simp [opens]

end Entered

/-! ## Names by blocks -/

section

variable {lines : List Line} {line : Line} {place block : Nat} {outer : List Nat}

theorem declaringBlocks_outer (declaring : declaringBlocks lines place = block :: outer) :
    outer = openBlocks (lines.take block) := by
  rw [declaringBlocks] at declaring
  split at declaring
  · rename_i header
    obtain ⟨found, stored, kind⟩ := (Option.any_eq_true _ _).mp header
    have opens : lines[place]?.any (·.kind.opens) = true := by
      rw [stored, Option.any_some, beq_iff_eq.mp kind]
      rfl
    cases declaring
    rw [blocksAround, if_pos opens]
  · exact blocksAround_outer declaring

theorem declaringBlocks_opens (member : block ∈ declaringBlocks lines place) :
    ∃ line, lines[block]? = some line ∧ line.kind.opens = true := by
  rw [declaringBlocks] at member
  split at member
  · rename_i header
    rcases List.mem_cons.mp member with rfl | member
    · obtain ⟨found, stored, kind⟩ := (Option.any_eq_true _ _).mp header
      exact ⟨found, stored, by rw [beq_iff_eq.mp kind]; rfl⟩
    · exact blocksAround_opens member
  · exact blocksAround_opens member

theorem declaringBlocks_append (inside : place < lines.length) :
    declaringBlocks (lines ++ [line]) place = declaringBlocks lines place := by
  rw [declaringBlocks, declaringBlocks, blocksAround, blocksAround,
    List.getElem?_append_left inside, List.take_append_of_le_length (Nat.le_of_lt inside),
    List.take_append_of_le_length inside]

end

namespace Recorded

variable {registry : Registry} {lines : List Line} {line : Line} {place : Nat}

theorem home_path (h : Recorded registry lines) (found : lines[place]? = some line) :
    line.home.path = (declaringBlocks lines place).map (segmentAt lines) := by
  have path := h.path_at found
  rw [Line.home, declaringBlocks, found, Option.any_some]
  by_cases kind : line.kind = .methodHeader
  · rw [if_pos kind, if_pos (by simp [kind]), List.map_cons, ← path, segmentAt, found]
    simp only [segmentAfter, kind]
    rfl
  · rw [if_neg kind, if_neg (by simp [kind]), path]

end Recorded

/-! ## What the tables know -/

namespace Line

variable {line : Line} {first : Token} {rest : List Token} {name : String}
  {parameters : List Parameter}

theorem newNames_of_declares (kind : line.kind = .declaration ∨ line.kind = .finalDeclaration ∨
    line.kind = .methodHeader) : line.newNames = (playing .name line.roles).map Token.name := by
  rcases kind with kind | kind | kind <;> simp only [newNames, kind]

theorem keys_declared (shape : line.tokens = first :: rest)
    (start : line.kind.begins first.kind = true) (form : line.checkForm = .ok ())
    (kind : line.kind = .declaration ∨ line.kind = .finalDeclaration) :
    line.declared.map Variable.key = line.newNames.map (·, line.scope) := by
  obtain ⟨_, _, -, -, declared⟩ := declared_played shape start form kind
  have names : line.newNames = (playing .name line.roles).map Token.name :=
    newNames_of_declares (by tauto)
  rw [declared, names, List.map_map, List.map_map]
  rfl

theorem keys_parameters {number : UInt32} {body : Scope} (kind : line.kind = .methodHeader)
    (played : ParametersPlayed line.roles parameters) :
    (parameters.map (·.toVariable number body)).map Variable.key =
      line.newNames.map (·, body) := by
  rw [newNames_of_declares (.inr (.inr kind)), ← played.names, List.map_map, List.map_map]
  rfl

theorem home_of_header (kind : line.kind = .methodHeader)
    (header : line.header? = some (name, parameters)) :
    line.home = line.scope.child (.method name) := by
  rw [home, if_pos kind, header]
  rfl

theorem home_of_other (kind : line.kind ≠ .methodHeader) : line.home = line.scope := if_neg kind

theorem keys_newVariables (formed : line.WellFormed) :
    line.newVariables.map Variable.key = line.newNames.map (·, line.home) := by
  obtain ⟨first, rest, shape, start⟩ := formed.begun
  rw [newVariables]
  cases kind : line.kind with
  | declaration =>
      rw [home_of_other (by simp [kind])]
      exact keys_declared shape start formed.form (.inl kind)
  | finalDeclaration =>
      rw [home_of_other (by simp [kind])]
      exact keys_declared shape start formed.form (.inr kind)
  | methodHeader =>
      obtain ⟨_, parameters, -, -, header, played⟩ := header_played shape start formed.form kind
      rw [header]
      exact keys_parameters kind played
  | _ => simp [newNames, kind]

theorem header_name (formed : line.WellFormed) (kind : line.kind = .methodHeader) :
    line.header?.map Prod.fst = line.tokens[1]?.map Token.name := by
  obtain ⟨first, rest, shape, start⟩ := formed.begun
  obtain ⟨_, _, second, -, header, -⟩ := header_played shape start formed.form kind
  rw [second, header]
  rfl

end Line

theorem Registry.Takes.records {registry next : Registry} {line : Line}
    (takes : registry.Takes line next) :
    next.symbols.vars.records = registry.symbols.vars.records ++ line.newVariables := by
  rw [Line.newVariables]
  cases takes with
  | declaration kind _ declared =>
      rcases kind with kind | kind <;> rw [kind] <;> exact VariableTable.declareAll_ok declared
  | method kind scope header _ declared =>
      rw [kind, header, Line.home_of_header kind header, scope]
      exact VariableTable.declareAll_ok declared
  | ifBlock kind | whileBlock kind | close kind => simp [kind]
  | other kind => rcases kind with kind | kind | kind | kind <;> simp [kind]

namespace Recorded

variable {registry : Registry} {lines : List Line} {raw : Line} {name : String} {scope : Scope}

theorem records (h : Recorded registry lines) :
    registry.symbols.vars.records = lines.flatMap Line.newVariables := by
  induction h with
  | start => rfl
  | line before number form takes ih => rw [takes.records, ih, List.flatMap_append,
      List.flatMap_singleton]

theorem key_known_iff (h : Recorded registry lines) :
    (name, scope) ∈ registry.symbols.vars.records.map Variable.key ↔
      ∃ (place : Nat) (line : Line), lines[place]? = some line ∧ name ∈ line.newNames ∧
        line.home = scope := by
  rw [h.records, List.map_flatMap, List.mem_flatMap]
  constructor
  · rintro ⟨line, member, key⟩
    rw [Line.keys_newVariables (h.wellFormed line member)] at key
    obtain ⟨_, named, same⟩ := List.mem_map.mp key
    cases same
    obtain ⟨place, stored⟩ := List.mem_iff_getElem?.mp member
    exact ⟨place, line, stored, named, rfl⟩
  · rintro ⟨place, line, stored, named, rfl⟩
    have member := List.mem_of_getElem? stored
    refine ⟨line, member, ?_⟩
    rw [Line.keys_newVariables (h.wellFormed line member)]
    exact List.mem_map.mpr ⟨name, named, rfl⟩

theorem methodTaken_iff (h : Recorded registry lines) (kind : raw.kind = .methodHeader)
    (named : raw.tokens[1]?.map Token.name = some name) :
    MethodTaken lines raw ↔ (registry.symbols.methods.find? name).isSome = true := by
  rw [MethodTaken, and_iff_right kind, h.method_known_iff, named]
  constructor
  · rintro ⟨header, member, isHeader, same⟩
    refine ⟨header, member, isHeader, ?_⟩
    rw [Line.header_name (h.wellFormed header member) isHeader, same]
  · rintro ⟨header, member, isHeader, same⟩
    refine ⟨header, member, isHeader, ?_⟩
    rw [← Line.header_name (h.wellFormed header member) isHeader, same]

end Recorded

/-! ## Failures of the next line -/

/-- Variables that are declared in one scope clash by their names. -/
theorem VariableTable.declareAll_clash {table : VariableTable} {vs : List Variable}
    {names : List String} {scope : Scope} (keys : vs.map Variable.key = names.map (·, scope)) :
    (table.declareAll vs).2 ≠ .ok () ↔
      ¬names.Nodup ∨ ∃ name ∈ names, (name, scope) ∈ table.records.map Variable.key := by
  have distinct : (names.map fun name => (name, scope)).Nodup ↔ names.Nodup :=
    List.nodup_map_iff fun _ _ same => (Prod.mk.inj same).1
  have fresh : (∀ v ∈ vs, v.key ∉ table.records.map Variable.key) ↔
      ∀ name ∈ names, (name, scope) ∉ table.records.map Variable.key :=
    calc
      _ ↔ ∀ key ∈ vs.map Variable.key, key ∉ table.records.map Variable.key :=
        List.forall_mem_map.symm
      _ ↔ _ := by rw [keys, List.forall_mem_map]
  rw [ne_eq, declareAll_ok_iff, keys, distinct, fresh, not_and_or]
  simp only [not_forall, not_not, exists_prop]

theorem VariableTable.declareAll_fails {table : VariableTable} {vs : List Variable}
    {names : List String} {scope : Scope} {kind : FaultKind} {line : Line}
    (keys : vs.map Variable.key = names.map (·, scope)) :
    (∃ cause, ((table.declareAll vs).2.map fun _ => line) = .error cause ∧ cause.kind = kind) ↔
      kind = .duplicateDeclaration ∧
        (¬names.Nodup ∨ ∃ name ∈ names, (name, scope) ∈ table.records.map Variable.key) := by
  rw [← declareAll_clash keys]
  cases outcome : (table.declareAll vs).2 with
  | ok => simp [Except.map]
  | error cause => simp [Except.map, declareAll_error outcome, eq_comm]

namespace Recorded

variable {registry : Registry} {lines : List Line} {raw : Line} {first : Token} {rest : List Token}
  {kind : FaultKind}

theorem declaring_next (neither : raw.kind.opens = false ∧ raw.kind ≠ .closingBracket) :
    declaringBlocks (lines ++ [raw]) lines.length = openBlocks lines := by
  have notHeader : raw.kind ≠ .methodHeader := by
    intro header
    rw [header] at neither
    cases neither.1
  rw [declaringBlocks, List.getElem?_concat_length, Option.any_some, if_neg (by simp [notHeader]),
    blocksAround, List.getElem?_concat_length, Option.any_some, if_neg (by simp [neither.1]),
    List.take_of_length_le (by simp), openBlocks_append, blocksAfter, if_neg (by simp [neither.1]),
    if_neg neither.2]

/-- A line that comes next and opens no block declares in the same block as an earlier one if and
only if it declares in the same scope. -/
theorem declaring_next_iff (h : Recorded registry lines) (few : lines.length < 2 ^ 32)
    (neither : raw.kind.opens = false ∧ raw.kind ≠ .closingBracket) {place : Nat} {line : Line}
    (stored : lines[place]? = some line) :
    declaringBlock? (lines ++ [raw]) place = declaringBlock? (lines ++ [raw]) lines.length ↔
      line.home = registry.scope := by
  have inside : place < lines.length := (List.getElem?_eq_some_iff.mp stored).1
  rw [declaringBlock?, declaringBlock?, declaring_next neither, declaringBlocks_append inside]
  constructor
  · intro same
    have blocks : declaringBlocks lines place = openBlocks lines :=
      eq_of_head? (fun _ _ => declaringBlocks_outer)
        (fun _ _ opened => openBlocks_outer (by rw [opened])) same
    have path := h.home_path stored
    rw [blocks, ← h.path] at path
    exact congrArg Scope.mk path
  · intro same
    have paths := h.home_path stored
    rw [same, h.path] at paths
    rw [h.map_segmentAt_inj few (fun _ => openBlocks_opens) (fun _ => declaringBlocks_opens) paths]

theorem declaration_fails (h : Recorded registry lines) (few : lines.length < 2 ^ 32)
    (shape : raw.tokens = first :: rest) (start : raw.kind.begins first.kind = true)
    (form : raw.checkForm = .ok ())
    (declares : raw.kind = .declaration ∨ raw.kind = .finalDeclaration) :
    registry.FailsWith raw kind ↔
      kind = .duplicateDeclaration ∧ (¬raw.newNames.Nodup ∨ VariableTaken lines raw) := by
  let here : Line := { raw with scope := registry.scope }
  have entered : registry.register raw = registry.declareVariables here := by
    unfold Registry.register
    split <;> first | rfl | simp_all
  have keys : here.declared.map Variable.key = here.newNames.map (·, here.scope) :=
    Line.keys_declared shape start form declares
  have neither : raw.kind.opens = false ∧ raw.kind ≠ .closingBracket := by
    rcases declares with declares | declares <;> rw [declares] <;> exact ⟨rfl, nofun⟩
  have taken : (∃ name ∈ raw.newNames,
        (name, registry.scope) ∈ registry.symbols.vars.records.map Variable.key) ↔
      VariableTaken lines raw := by
    simp only [h.key_known_iff, VariableTaken]
    refine exists_congr fun name => and_congr_right fun _ => exists_congr fun place =>
      exists_congr fun line => and_congr_right fun stored => and_congr_right fun _ => ?_
    rw [h.declaring_next_iff few neither stored]
  rw [Registry.FailsWith, entered, ← taken]
  exact VariableTable.declareAll_fails keys

/-- Nothing has been declared in the body of a method that is not known. -/
theorem body_unknown (h : Recorded registry lines) {name method : String} {scope : Scope}
    (unknown : registry.symbols.methods.find? method = none) :
    (name, scope.child (.method method)) ∉ registry.symbols.vars.records.map Variable.key := by
  intro known
  obtain ⟨place, line, stored, -, home⟩ := h.key_known_iff.mp known
  have path := h.home_path stored
  rw [home] at path
  obtain ⟨block, _, -, segment, -⟩ := List.map_eq_cons_iff.mp path.symm
  obtain ⟨header, parameters, found, kind, named⟩ := h.header_of_segment segment
  have member : header ∈ lines := List.mem_of_getElem? found
  have isKnown := h.method_known_iff.mpr ⟨header, member, kind, by rw [named, Option.map_some]⟩
  rw [unknown] at isKnown
  cases isKnown

theorem not_variableTaken_of_header (header : raw.kind = .methodHeader) :
    ¬VariableTaken lines raw := by
  rintro ⟨_, -, place, _, stored, -, same⟩
  have inside : place < lines.length := (List.getElem?_eq_some_iff.mp stored).1
  have own : declaringBlock? (lines ++ [raw]) lines.length = some lines.length := by
    rw [declaringBlock?, declaringBlocks, List.getElem?_concat_length, Option.any_some,
      if_pos (by simp [header]), List.head?_cons]
  rw [own, declaringBlock?, declaringBlocks_append inside] at same
  obtain ⟨_, found, -⟩ := declaringBlocks_opens (List.mem_of_head? same)
  have before := (List.getElem?_eq_some_iff.mp found).1
  omega

theorem header_fails (h : Recorded registry lines) (shape : raw.tokens = first :: rest)
    (start : raw.kind.begins first.kind = true) (form : raw.checkForm = .ok ())
    (header : raw.kind = .methodHeader) :
    registry.FailsWith raw kind ↔
      kind = .duplicateMethod ∧ MethodTaken lines raw ∨
        kind = .duplicateDeclaration ∧ ¬MethodTaken lines raw ∧ ¬raw.newNames.Nodup := by
  let here : Line := { raw with scope := registry.scope }
  obtain ⟨method, parameters, second, -, named, played⟩ : ∃ method parameters,
      here.tokens[1]? = some method ∧ method.kind = .methodName ∧
        here.header? = some (method.name, parameters) ∧ ParametersPlayed here.roles parameters :=
    Line.header_played shape start form header
  have entered : registry.register raw = registry.declareMethod here := by
    unfold Registry.register
    split <;> first | rfl | simp_all
  have secondName : raw.tokens[1]?.map Token.name = some method.name :=
    congrArg (Option.map Token.name) second
  rw [h.methodTaken_iff header secondName, Registry.FailsWith, entered, Registry.declareMethod,
    named]
  simp only [MethodTable.declare]
  cases known : registry.symbols.methods.find? method.name with
  | some found => simp [Cause.kind, eq_comm]
  | none =>
      let body := registry.scope.child (.method method.name)
      let parameters := parameters.map (·.toVariable raw.number body)
      have keys : parameters.map Variable.key = here.newNames.map (·, body) :=
        Line.keys_parameters header played
      have unknown : ¬∃ name ∈ here.newNames,
          (name, body) ∈ registry.symbols.vars.records.map Variable.key := by
        rintro ⟨name, -, clash⟩
        exact h.body_unknown known clash
      refine (VariableTable.declareAll_fails keys).trans ?_
      rw [or_iff_left unknown, show here.newNames = raw.newNames from rfl]
      simp

theorem other_fails (notHeader : raw.kind ≠ .methodHeader)
    (undeclaring : ¬(raw.kind = .declaration ∨ raw.kind = .finalDeclaration))
    (fails : registry.FailsWith raw kind) : kind = .unbalancedBrackets := by
  obtain ⟨cause, failed, rfl⟩ := fails
  unfold Registry.register at failed
  cases isKind : raw.kind with
  | declaration => exact absurd (.inl isKind) undeclaring
  | finalDeclaration => exact absurd (.inr isKind) undeclaring
  | methodHeader => exact absurd isKind notHeader
  | closingBracket =>
      simp only [isKind] at failed
      split at failed <;> cases failed
      rfl
  | _ =>
      simp only [isKind] at failed
      cases failed

/-- The fault of the next line, by what it declares and what the lines before it have declared. -/
theorem next_fails (h : Recorded registry lines) (few : lines.length < 2 ^ 32)
    (shape : raw.tokens = first :: rest) (start : raw.kind.begins first.kind = true)
    (form : raw.checkForm = .ok ()) :
    (registry.FailsWith raw .duplicateMethod ↔ MethodTaken lines raw) ∧
      (registry.FailsWith raw .duplicateDeclaration ↔
        ¬MethodTaken lines raw ∧ (¬raw.newNames.Nodup ∨ VariableTaken lines raw)) := by
  by_cases header : raw.kind = .methodHeader
  · rw [h.header_fails shape start form header, h.header_fails shape start form header]
    simp [not_variableTaken_of_header header]
  · have untaken : ¬MethodTaken lines raw := fun taken => header taken.1
    by_cases declares : raw.kind = .declaration ∨ raw.kind = .finalDeclaration
    · rw [h.declaration_fails few shape start form declares,
        h.declaration_fails few shape start form declares]
      simp [untaken]
    · have nothing : raw.newNames = [] := by
        unfold Line.newNames
        split <;> simp_all
      have passes : ¬VariableTaken lines raw := by
        rintro ⟨name, named, -⟩
        rw [nothing] at named
        cases named
      refine ⟨iff_of_false (fun fails => ?_) untaken, iff_of_false (fun fails => ?_) ?_⟩
      · cases other_fails header declares fails
      · cases other_fails header declares fails
      · simp [nothing, passes]

end Recorded

theorem Verifier.failsWith_iff {verifier : Verifier} {text : String} {raw : Line} {kind : FaultKind}
    (made : Line.ofTokens verifier.nextNumber (tokens text) = .ok raw)
    (form : raw.checkForm = .ok ()) :
    verifier.FailsWith text kind ↔ verifier.registry.FailsWith raw kind := by
  rw [FailsWith, Registry.FailsWith, feed, not_isBlank_of_ofTokens made, Registry.enter, made]
  simp only [Bool.false_eq_true, if_false]
  cases registered : verifier.registry.register raw with
  | mk next outcome =>
      cases outcome with
      | error cause => simp [Fault.diagnostic]
      | ok line =>
          obtain ⟨-, sameKind, sameTokens⟩ := Registry.register_same registered
          rw [← Line.checkForm_congr sameKind sameTokens] at form
          simp [form, Line.located, Except.mapError]

/-- No two opening lines enter the same scope, so lines have the same scope exactly if they lie
directly in the same block. A next line that has a form therefore fails for a method if it is the
header of one that has been declared, and otherwise for a variable if it declares a name twice, or
one that an earlier line has declared in the same block. -/
theorem redeclared_in_block {texts : List String} {verifier : Verifier}
    (fed : Verifier.feedAll {} texts = .ok verifier) (few : verifier.lines.size < 2 ^ 32) :
    ((Verifier.entered {} texts).Nodup ∧
        (Verifier.entered {} texts).length = openers verifier.lines.toList) ∧
      (∀ i j first second, verifier.lines[i]? = some first → verifier.lines[j]? = some second →
        (first.scope = second.scope ↔
          blockOf? verifier.lines.toList i = blockOf? verifier.lines.toList j)) ∧
      ∀ text raw, Line.ofTokens verifier.nextNumber (tokens text) = .ok raw →
        raw.checkForm = .ok () →
        (verifier.FailsWith text .duplicateMethod ↔ MethodTaken verifier.lines.toList raw) ∧
          (verifier.FailsWith text .duplicateDeclaration ↔
            ¬MethodTaken verifier.lines.toList raw ∧
              (¬raw.newNames.Nodup ∨ VariableTaken verifier.lines.toList raw)) := by
  have recorded := Verifier.recorded_of_feedAll fed
  have entered : bodies verifier.lines.toList = Verifier.entered {} texts :=
    Verifier.bodies_entered .start fed
  have distinct : (Verifier.entered {} texts).Nodup := entered ▸ recorded.bodies_nodup few
  have count : (Verifier.entered {} texts).length = openers verifier.lines.toList :=
    entered ▸ recorded.length_bodies
  refine ⟨⟨distinct, count⟩, ?_, ?_⟩
  · intro i j first second foundFirst foundSecond
    rw [← Array.getElem?_toList] at foundFirst foundSecond
    exact recorded.scope_eq_iff few foundFirst foundSecond
  · intro text raw made form
    obtain ⟨first, rest, tokens, start, rawShape⟩ := Line.ofTokens_ok made
    have shape : raw.tokens = first :: rest := by rw [rawShape, tokens]
    rw [Verifier.failsWith_iff made form, Verifier.failsWith_iff made form]
    exact recorded.next_fails few shape start form

/-- A parameter is declared in the body of its method, where a local is too. -/
theorem redeclared_in_block_parameter :
    ∃ verifier raw, Verifier.feedAll {} ["int b;", "void f(int a) \x7b", "int b;"] = .ok verifier ∧
      Line.ofTokens verifier.nextNumber (tokens "int a;") = .ok raw ∧
      verifier.FailsWith "int a;" .duplicateDeclaration ∧
      VariableTaken verifier.lines.toList raw := by
  have evaluated : (Verifier.feedAll {} ["int b;", "void f(int a) \x7b", "int b;"]).toOption.any
      (fun verifier => decide (verifier.lines.size < 2 ^ 32) &&
        (Line.ofTokens verifier.nextNumber (tokens "int a;")).toOption.any (fun raw =>
          raw.checkForm.toBool && decide raw.newNames.Nodup) &&
        decide ((verifier.feed "int a;").2 =
          .error ⟨4, .redeclared "a" (Scope.global.child (.method "f"))⟩)) = true := by
    decide +kernel
  obtain ⟨verifier, fed, test⟩ := ok_of_any evaluated
  simp only [Bool.and_eq_true, decide_eq_true_eq] at test
  obtain ⟨⟨few, made⟩, refused⟩ := test
  obtain ⟨raw, made, test⟩ := ok_of_any made
  simp only [Bool.and_eq_true, decide_eq_true_eq] at test
  obtain ⟨form, distinct⟩ := test
  obtain ⟨⟨⟩, form⟩ := ok_of_toBool form
  have fails : verifier.FailsWith "int a;" .duplicateDeclaration := ⟨_, refused, rfl⟩
  obtain ⟨-, -, next⟩ := redeclared_in_block fed few
  obtain ⟨-, clash⟩ := (next "int a;" raw made form).2.mp fails
  exact ⟨verifier, raw, fed, made, fails, clash.resolve_left (not_not.mpr distinct)⟩

end SJava
