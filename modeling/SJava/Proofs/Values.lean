import SJava.Rules
import SJava.Proofs.Form

/-!
# Values of lines

Where a line reads values and what it assigns, both said by the places of its tokens alone: a value
stands right after an equals sign, the opening of a call or a condition, a comma between arguments
or a connective (`Line.values`), and a name is assigned where an equals sign stands after it
(`Line.assignments`). The reader of lines follows roles instead. Its visitors come upon the same
values in the same order (`Line.read_eq_foldlM`), and the one for declarations, which carries a name
along, upon the same assignments (`LineKind.read_initializers_ok`).
-/

namespace SJava

/-! ## Places -/

/-- Whether a value may stand right after a token of a kind. -/
def LineKind.leadsToValue : LineKind → TokenKind → Bool
  | .declaration, before | .finalDeclaration, before | .assignment, before => before == .equals
  | .methodCall, before => before == .methodName || before == .comma
  | .ifHeader, before | .whileHeader, before =>
      before == .ifOpen || before == .whileOpen || before == .andAnd || before == .orOr
  | .methodHeader, _ | .methodReturn, _ | .closingBracket, _ | .comment, _ => false

/-- The values that stand right after a token that leads to one. -/
def valuesAfter (leads : TokenKind → Bool) : List Token → List Token
  | before :: next :: rest =>
      let values := valuesAfter leads (next :: rest)
      if leads before.kind && next.kind.isValue then next :: values else values
  | _ => []

/-- The tokens before the equals signs, each with the one after its sign. -/
def assignmentsIn : List Token → List (Token × Token)
  | name :: equals :: value :: rest =>
      let later := assignmentsIn (equals :: value :: rest)
      if equals.kind == .equals then (name, value) :: later else later
  | _ => []

namespace Line

def values (line : Line) : List Token := valuesAfter line.kind.leadsToValue line.tokens

/-- The names that a line gives values to, each with its value. -/
def assignments (line : Line) : List (Token × Token) :=
  if line.kind.assigns then assignmentsIn line.tokens else []

end Line

section

variable {leads : TokenKind → Bool} {before next : Token} {tokens : List Token}

theorem valuesAfter_singleton : valuesAfter leads [before] = [] := rfl

theorem valuesAfter_of_value (h : leads before.kind = true ∧ next.kind.isValue = true) :
    valuesAfter leads (before :: next :: tokens) = next :: valuesAfter leads (next :: tokens) := by
  simp [valuesAfter, h]

theorem valuesAfter_of_other (h : ¬(leads before.kind = true ∧ next.kind.isValue = true)) :
    valuesAfter leads (before :: next :: tokens) = valuesAfter leads (next :: tokens) := by
  simp only [valuesAfter]
  rw [if_neg (by simpa using h)]

theorem assignmentsIn_of_equals {name value : Token} (h : before.kind = .equals) :
    assignmentsIn (name :: before :: value :: tokens) =
      (name, value) :: assignmentsIn (before :: value :: tokens) := by
  simp [assignmentsIn, h]

theorem assignmentsIn_of_other {name : Token} (h : before.kind ≠ .equals) :
    assignmentsIn (name :: before :: tokens) = assignmentsIn (before :: tokens) := by
  cases tokens <;> simp [assignmentsIn, h]

theorem isValue_of_mem_valuesAfter {value : Token} (member : value ∈ valuesAfter leads tokens) :
    value.kind.isValue = true := by
  induction tokens with
  | nil => cases member
  | cons before tokens ih =>
      cases tokens with
      | nil => cases member
      | cons next tokens =>
          by_cases h : leads before.kind = true ∧ next.kind.isValue = true
          · rw [valuesAfter_of_value h] at member
            rcases List.mem_cons.mp member with rfl | member
            · exact h.2
            · exact ih member
          · rw [valuesAfter_of_other h] at member
            exact ih member

theorem assignmentsIn_of_value {value : Token}
    (member : value ∈ valuesAfter (· == .equals) (next :: tokens)) :
    ∃ name, (name, value) ∈ assignmentsIn (before :: next :: tokens) := by
  induction tokens generalizing before next with
  | nil => cases member
  | cons token tokens ih =>
      by_cases sign : next.kind = .equals
      · rw [assignmentsIn_of_equals sign]
        by_cases h : (next.kind == .equals) = true ∧ token.kind.isValue = true
        · rw [valuesAfter_of_value h] at member
          rcases List.mem_cons.mp member with rfl | member
          · exact ⟨before, List.mem_cons_self⟩
          · obtain ⟨name, later⟩ := @ih next token member
            exact ⟨name, List.mem_cons_of_mem _ later⟩
        · rw [valuesAfter_of_other h] at member
          obtain ⟨name, later⟩ := @ih next token member
          exact ⟨name, List.mem_cons_of_mem _ later⟩
      · rw [assignmentsIn_of_other sign]
        rw [valuesAfter_of_other (by simp [sign])] at member
        exact ih member

end

/-! ## Reading values -/

namespace LineKind

variable {kind : LineKind} {role played reached : Role} {first second : TokenKind}

/-- The table lets a token be a value exactly where one stands by its place. -/
theorem played_value_iff (fits : role.fits first = true)
    (step : kind.next? role second = some played) :
    played = .value ↔ kind.leadsToValue first = true ∧ second.isValue = true := by
  -- What may follow a value is no value itself.
  have notValue : TokenKind.comma.isValue = false ∧ TokenKind.rightParen.isValue = false ∧
      TokenKind.andAnd.isValue = false ∧ TokenKind.orOr.isValue = false ∧
      TokenKind.semicolon.isValue = false := ⟨rfl, rfl, rfl, rfl, rfl⟩
  revert step
  cases kind with
  | declaration | finalDeclaration =>
      simp only [next?]
      fun_cases Role.inDeclaration _ role second <;> intro step <;> cases step <;>
        simp_all [Role.fits, leadsToValue]
      rintro rfl
      cases fits
  | assignment =>
      simp only [next?]
      fun_cases Role.inAssignment role second <;> intro step <;> cases step <;>
        simp_all [Role.fits, leadsToValue]
  | methodCall =>
      simp only [next?]
      fun_cases Role.inCall role second <;> intro step <;> cases step <;>
        simp_all [Role.fits, leadsToValue]
  | methodHeader =>
      simp only [next?]
      fun_cases Role.inMethodHeader role second <;> intro step <;> cases step <;>
        simp_all [Role.fits, leadsToValue]
  | ifHeader | whileHeader =>
      simp only [next?]
      fun_cases Role.inCondition role second <;> intro step <;> cases step <;>
        simp_all [Role.fits, leadsToValue, TokenKind.isValue_of_isAtom]
      rcases fits with rfl | rfl <;> simp
  | methodReturn | closingBracket | comment =>
      intro step
      cases step

variable {σ : Type} {visit : σ → Role → Token → Except Cause σ} {before next : Token}
  {tokens : List Token} {state : σ}

theorem read_cons (step : kind.next? role next.kind = some played) :
    kind.read visit state role (next :: tokens) =
      visit state played next >>= fun later => kind.read visit later played tokens := by
  rw [read, step]
  simp only
  cases visit state played next <;> rfl

theorem read_eq_foldlM
    (skips : ∀ state role token, role ≠ .value → visit state role token = .ok state)
    (fits : role.fits before.kind = true)
    (follows : kind.follow? role (tokens.map Token.kind) = some reached) :
    kind.read visit state role tokens =
      (valuesAfter kind.leadsToValue (before :: tokens)).foldlM (visit · .value ·) state := by
  induction tokens generalizing before role state with
  | nil => rfl
  | cons next tokens ih =>
      obtain ⟨played, step, follows⟩ := Option.bind_eq_some_iff.mp follows
      have fitsNext := (next?_some step).1
      rw [read_cons step]
      by_cases value : played = .value
      · subst value
        rw [valuesAfter_of_value ((played_value_iff fits step).mp rfl), List.foldlM_cons]
        simp only [ih fitsNext follows]
      · rw [valuesAfter_of_other (mt (played_value_iff fits step).mpr value),
          skips state played next value]
        exact ih fitsNext follows

end LineKind

theorem Line.read_eq_foldlM {line : Line} {σ : Type} {visit : σ → Role → Token → Except Cause σ}
    {state : σ} (formed : line.WellFormed) (kind : line.kind ≠ .comment)
    (skips : ∀ state role token, role ≠ .value → visit state role token = .ok state) :
    line.read visit state = line.values.foldlM (visit · .value ·) state := by
  obtain ⟨first, rest, reached, shape, start, follows, -⟩ := formed.follows kind
  rw [Line.read, Line.values, shape]
  exact LineKind.read_eq_foldlM skips (LineKind.opening_fits start) follows

theorem foldlM_check_ok {check : Token → Except Cause Unit} {tokens : List Token} :
    tokens.foldlM (fun _ token => check token) () = .ok () ↔
      ∀ token ∈ tokens, check token = .ok () := by
  induction tokens with
  | nil => exact iff_of_true rfl nofun
  | cons token tokens ih => rw [List.foldlM_cons, then_eq_ok, ih, List.forall_mem_cons]

theorem foldlM_collect_ok {α : Type} {find : Token → Except Cause α} {finds : Token → α → Prop}
    {tokens : List Token} {start all : List α}
    (h : ∀ token ∈ tokens, ∀ value, find token = .ok value ↔ finds token value) :
    tokens.foldlM (fun found token => do return found ++ [← find token]) start = .ok all ↔
      ∃ found, all = start ++ found ∧ List.Forall₂ finds tokens found := by
  induction tokens generalizing start with
  | nil =>
      constructor
      · intro equal
        cases equal
        exact ⟨[], (List.append_nil _).symm, .nil⟩
      · intro holds
        obtain ⟨_, rfl, ⟨⟩⟩ := holds
        rw [List.append_nil]
        rfl
  | cons token tokens ih =>
      have here := h token List.mem_cons_self
      have later {start : List α} := @ih start fun token member =>
        h token (List.mem_cons_of_mem _ member)
      simp only [List.foldlM_cons, bind_assoc, pure_bind, bind_eq_ok, here, later]
      constructor
      · intro holds
        obtain ⟨value, first, found, rfl, each⟩ := holds
        exact ⟨value :: found, by simp, .cons first each⟩
      · rintro ⟨_, rfl, _ | ⟨first, each⟩⟩
        exact ⟨_, first, _, by simp, each⟩

/-! ## Types of values -/

namespace VariableTable

/-- The type of a value on a line: a literal has that of its kind, and a variable that can be read
there has the one that it is declared with. -/
inductive HasType (vars : VariableTable) (line : Line) : Token → ValueType → Prop
  | ofLiteral {token : Token} {type : ValueType} (kind : token.kind.isLiteral = true)
      (known : token.kind.valueType? = some type) : HasType vars line token type
  | ofVariable {token : Token} {v : Variable} (kind : token.kind = .variableName)
      (visible : vars.lookup? token.name line.scope = some v)
      (readable : v.isReadableAt line.number line.scope = true) : HasType vars line token v.type

variable {vars : VariableTable} {line : Line} {token : Token} {type : ValueType}

theorem resolve_ok {name : String} {scope : Scope} {v : Variable} :
    vars.resolve name scope = .ok v ↔ vars.lookup? name scope = some v := by
  rw [resolve]
  cases vars.lookup? name scope <;> simp

theorem checkReadable_ok {v : Variable} :
    v.checkReadable line = .ok () ↔ v.isReadableAt line.number line.scope = true := by
  rw [Variable.checkReadable]
  split <;> simp_all

theorem valueType_ok (value : token.kind.isValue = true) :
    vars.valueType line token = .ok type ↔ vars.HasType line token type := by
  rw [valueType]
  split
  · rename_i kind
    rw [bind_eq_ok]
    simp only [resolve_ok, then_eq_ok, checkReadable_ok]
    constructor
    · intro holds
      obtain ⟨v, visible, readable, ⟨⟩⟩ := holds
      exact .ofVariable kind visible readable
    · rintro (⟨literal, _⟩ | ⟨_, visible, readable⟩)
      · rw [kind] at literal
        cases literal
      · exact ⟨_, visible, readable, rfl⟩
  · rename_i kind
    have literal : token.kind.isLiteral = true := by simpa [TokenKind.isValue, kind] using value
    constructor
    · intro found
      split at found
      · rename_i type known
        cases found
        exact .ofLiteral literal known
      · cases found
    · rintro (⟨_, known⟩ | ⟨isName, _, _⟩)
      · rw [known]
      · exact absurd isName kind

/-- The name before an equals sign stands for a variable that takes the value after it. -/
def Fits (vars : VariableTable) (line : Line) (name : String) (value : Token) : Prop :=
  ∃ target type, vars.lookup? name line.scope = some target ∧ vars.HasType line value type ∧
    target.type.accepts type = true

end VariableTable

/-! ## Reading assignments -/

namespace LineKind

variable {kind : LineKind} {role played reached : Role}

/-- On a line that assigns, an equals sign stands after a name and before a value, and no value
stands anywhere else. -/
theorem assigning_step {first second : TokenKind} (assigns : kind.assigns = true)
    (fits : role.fits first = true) (step : kind.next? role second = some played) :
    role = .equals ∧ first = .equals ∧ played = .value ∨
      first ≠ .equals ∧ played ≠ .value ∧ (played = .equals → role = .name) := by
  have notEquals : TokenKind.equals.isTypeWord = false ∧ TokenKind.equals.isValue = false :=
    ⟨rfl, rfl⟩
  revert step
  cases kind with
  | declaration | finalDeclaration =>
      simp only [next?]
      fun_cases Role.inDeclaration _ role second <;> intro step <;> cases step <;>
        simp_all [Role.fits] <;> rintro rfl <;> simp_all
  | assignment =>
      simp only [next?]
      fun_cases Role.inAssignment role second <;> intro step <;> cases step <;>
        simp_all [Role.fits]
      rintro rfl
      simp_all
  | _ => cases assigns

theorem terminator_of_assigns (assigns : kind.assigns = true) :
    kind.terminator? = some .semicolon := by
  cases kind <;> first | rfl | cases assigns

theorem writtenNames_eq {before last : Token} {tokens : List Token} (assigns : kind.assigns = true)
    (fits : role.fits last.kind = true) (named : role = .equals → before.kind = .variableName)
    (follows : kind.follow? role (tokens.map Token.kind) = some reached)
    (done : [] ∈ kind.completions reached) :
    writtenNames (before :: last :: tokens) =
      (assignmentsIn (before :: last :: tokens)).map (·.1.name) := by
  induction tokens generalizing before last role with
  | nil =>
      -- No equals sign is left over at the end, which is a semicolon.
      cases follows
      have ends := terminator_of_assigns assigns
      have sign : last.kind = .semicolon :=
        eq_of_fits_terminator ends ((nil_mem_completions ends).mp done) fits
      simp [writtenNames, assignmentsIn, sign]
  | cons next tokens ih =>
      obtain ⟨played, step, follows⟩ := Option.bind_eq_some_iff.mp follows
      have fitsNext := (next?_some step).1
      rcases assigning_step assigns fits step with ⟨rfl, sign, rfl⟩ | ⟨sign, value, equals⟩
      · rw [assignmentsIn_of_equals sign, List.map_cons, writtenNames]
        simp only [named rfl, sign, beq_self_eq_true, Bool.and_self, if_true]
        rw [ih fitsNext nofun follows]
      · rw [assignmentsIn_of_other sign, writtenNames]
        simp only [sign, beq_iff_eq, Bool.and_eq_true, and_false, if_false]
        refine ih fitsNext (fun after => ?_) follows
        simpa [equals after, Role.fits] using fits

theorem visitInitializer_ok {line : Line} {vars : VariableTable} {name next : String}
    {value : Token} (isValue : value.kind.isValue = true) :
    line.visitInitializer vars name .value value = .ok next ↔
      next = name ∧ vars.Fits line name value := by
  rw [Line.visitInitializer, bind_eq_ok]
  simp only [VariableTable.resolve_ok, bind_eq_ok, VariableTable.valueType_ok isValue]
  constructor
  · intro holds
    obtain ⟨target, visible, type, typed, accepted⟩ := holds
    split at accepted
    · rename_i accepts
      cases accepted
      exact ⟨rfl, target, type, visible, typed, accepts⟩
    · cases accepted
  · intro holds
    obtain ⟨rfl, target, type, visible, typed, accepts⟩ := holds
    refine ⟨target, visible, type, typed, ?_⟩
    rw [if_pos accepts]
    rfl

theorem visitInitializer_other {line : Line} {vars : VariableTable} {name : String} {token : Token}
    (value : played ≠ .value) :
    line.visitInitializer vars name played token =
      .ok (if played = .name then token.name else name) := by
  cases played <;> simp_all [Line.visitInitializer]

theorem read_initializers_ok {line : Line} {vars : VariableTable} {before last : Token}
    {tokens : List Token} {name : String} (assigns : line.kind.assigns = true)
    (fits : role.fits last.kind = true) (isName : role = .name → name = last.name)
    (isEquals : role = .equals → name = before.name)
    (follows : line.kind.follow? role (tokens.map Token.kind) = some reached) :
    (∃ final, line.kind.read (line.visitInitializer vars) name role tokens = .ok final) ↔
      ∀ pair ∈ assignmentsIn (before :: last :: tokens), vars.Fits line pair.1.name pair.2 := by
  -- The reader carries the last name that it has seen: at an equals sign, the name before it.
  induction tokens generalizing before last role name with
  | nil => exact iff_of_true ⟨name, rfl⟩ fun _ member => absurd member List.not_mem_nil
  | cons next tokens ih =>
      obtain ⟨played, step, follows⟩ := Option.bind_eq_some_iff.mp follows
      have fitsNext := (next?_some step).1
      rw [read_cons step]
      rcases assigning_step assigns fits step with ⟨rfl, sign, rfl⟩ | ⟨sign, value, equals⟩
      · rw [assignmentsIn_of_equals sign, List.forall_mem_cons, ← isEquals rfl]
        simp only [bind_eq_ok, visitInitializer_ok fitsNext]
        rw [← ih fitsNext nofun nofun follows]
        constructor
        · intro holds
          obtain ⟨final, _, ⟨rfl, fit⟩, later⟩ := holds
          exact ⟨fit, final, later⟩
        · intro holds
          obtain ⟨fit, final, later⟩ := holds
          exact ⟨final, name, ⟨rfl, fit⟩, later⟩
      · rw [assignmentsIn_of_other sign, visitInitializer_other value]
        refine ih fitsNext (fun named => if_pos named) (fun after => ?_) follows
        rw [if_neg (by simp [after])]
        exact isName (equals after)

end LineKind

namespace Line

variable {line : Line} {vars : VariableTable}

theorem not_comment_of_assigns (assigns : line.kind.assigns = true) : line.kind ≠ .comment := by
  intro comment
  rw [comment] at assigns
  cases assigns

theorem not_equals_of_begins {kind : LineKind} {first : TokenKind}
    (start : kind.begins first = true) : first ≠ .equals := by
  rintro rfl
  cases kind <;> cases start

theorem opening_not_equals (kind : LineKind) : kind.opening ≠ .equals := by
  cases kind <;> exact nofun

/-- What a well formed line writes by the names before its equals signs, it assigns by place. -/
theorem written_eq (formed : line.WellFormed) :
    line.written = line.assignments.map (·.1.name) := by
  rw [written, assignments]
  split
  · rename_i assigns
    obtain ⟨first, rest, reached, shape, start, follows, done⟩ :=
      formed.follows (not_comment_of_assigns assigns)
    have sign := not_equals_of_begins start
    have names : writtenNames (first :: first :: rest) =
        (assignmentsIn (first :: first :: rest)).map (·.1.name) :=
      LineKind.writtenNames_eq assigns (LineKind.opening_fits start)
        (fun equals => absurd equals (opening_not_equals line.kind)) follows done
    rw [assignmentsIn_of_other sign, writtenNames] at names
    simpa [sign, shape] using names
  · rfl

theorem assignment_of_value {value : Token} (formed : line.WellFormed)
    (assigns : line.kind.assigns = true) (member : value ∈ line.values) :
    ∃ name, (name, value) ∈ line.assignments := by
  obtain ⟨first, rest, shape, start⟩ := formed.begun
  have leads : line.kind.leadsToValue = (· == .equals) := by
    cases kind : line.kind <;> rw [kind] at assigns <;> first | rfl | cases assigns
  rw [values, shape, leads] at member
  obtain ⟨name, assigned⟩ := @assignmentsIn_of_value first first rest value member
  rw [assignmentsIn_of_other (not_equals_of_begins start)] at assigned
  exact ⟨name, by rwa [assignments, if_pos assigns, shape]⟩

theorem values_eq_nil (h : ∀ kind, line.kind.leadsToValue kind = false) : line.values = [] := by
  rw [values]
  induction line.tokens with
  | nil => rfl
  | cons before tokens ih =>
      cases tokens with
      | nil => rfl
      | cons next tokens => rw [valuesAfter_of_other (by simp [h]), ih]

theorem read_initializers_ok (formed : line.WellFormed) (assigns : line.kind.assigns = true)
    (opening : line.kind.opening ≠ .name) :
    (∃ final, line.read (line.visitInitializer vars) "" = .ok final) ↔
      ∀ pair ∈ line.assignments, vars.Fits line pair.1.name pair.2 := by
  obtain ⟨first, rest, reached, shape, start, follows, -⟩ :=
    formed.follows (not_comment_of_assigns assigns)
  have initializers {name : String} :
      (∃ final, line.kind.read (line.visitInitializer vars) name line.kind.opening rest =
          .ok final) ↔
        ∀ pair ∈ assignmentsIn (first :: first :: rest), vars.Fits line pair.1.name pair.2 :=
    LineKind.read_initializers_ok assigns (LineKind.opening_fits start)
      (fun named => absurd named opening)
      (fun equals => absurd equals (opening_not_equals line.kind)) follows
  rw [assignmentsIn_of_other (not_equals_of_begins start)] at initializers
  rw [read, shape, List.tail_cons, initializers, assignments, if_pos assigns, shape]

end Line

end SJava
