import SJava.Proofs.Run
import SJava.Proofs.Tables
import SJava.Proofs.Values

/-!
# Roles and declarations

A line is read three times: for what it declares, by the places of its tokens, for the parameters of
a method, by a loop of its own, and for its form, along the table of roles. Here the tokens of a
line are listed with the roles that the table gives them (`Line.roles`), which are also the ones in
which every visitor of the reader sees them (`Line.read_eq_foldlM_roles`). On a well formed line the
three readings agree: names are declared where tokens play names (`Line.declared_played`), each
parameter is a name with the type before it and the `final` before that
(`parametersAfter_played`), and values are given to the names before a token that plays an equals
sign (`writtenNames_played`).
-/

namespace SJava

/-! ## Roles -/

/-- The tokens after one of a role, as far as the table lets them follow, each with its own role. -/
def LineKind.plays (kind : LineKind) : Role → List Token → List (Role × Token)
  | _, [] => []
  | role, token :: rest =>
      match kind.next? role token.kind with
      | none => []
      | some played => (played, token) :: kind.plays played rest

/-- The tokens that play a role. -/
def playing (role : Role) (roles : List (Role × Token)) : List Token :=
  (roles.filter (·.1 == role)).map Prod.snd

/-- What comes right before the tokens that play a role. -/
def justBefore (role : Role) : List (Role × Token) → List (Role × Token)
  | first :: second :: rest =>
      let later := justBefore role (second :: rest)
      if second.1 == role then first :: later else later
  | _ => []

def Line.roles (line : Line) : List (Role × Token) :=
  match line.tokens with
  | [] => []
  | first :: rest => (line.kind.opening, first) :: line.kind.plays line.kind.opening rest

section

variable {role : Role} {played first second : Role × Token} {roles : List (Role × Token)}

@[simp] theorem playing_nil : playing role [] = [] := rfl

@[simp] theorem playing_cons :
    playing role (played :: roles) =
      if played.1 = role then played.2 :: playing role roles else playing role roles := by
  by_cases h : played.1 = role <;> simp [playing, h]

@[simp] theorem justBefore_singleton : justBefore role [first] = [] := rfl

@[simp] theorem justBefore_cons_cons :
    justBefore role (first :: second :: roles) =
      if second.1 = role then first :: justBefore role (second :: roles)
      else justBefore role (second :: roles) := by
  simp [justBefore]

end

namespace LineKind

variable {kind : LineKind} {role played reached : Role} {first next : Token} {tokens : List Token}

@[simp] theorem plays_nil : kind.plays role [] = [] := rfl

theorem plays_cons (step : kind.next? role next.kind = some played) :
    kind.plays role (next :: tokens) = (played, next) :: kind.plays played tokens := by
  rw [plays, step]

theorem fits_of_mem_plays {pair : Role × Token} (member : pair ∈ kind.plays role tokens) :
    pair.1.fits pair.2.kind = true := by
  induction tokens generalizing role with
  | nil => cases member
  | cons next tokens ih =>
      rw [plays] at member
      split at member
      · cases member
      · rename_i played step
        rcases List.mem_cons.mp member with rfl | member
        · exact (next?_some step).1
        · exact ih member

theorem read_eq_foldlM_plays {σ : Type} {visit : σ → Role → Token → Except Cause σ} {state : σ}
    (follows : kind.follow? role (tokens.map Token.kind) = some reached) :
    kind.read visit state role tokens =
      (kind.plays role tokens).foldlM (fun state pair => visit state pair.1 pair.2) state := by
  induction tokens generalizing role state with
  | nil => rfl
  | cons next tokens ih =>
      obtain ⟨played, step, follows⟩ := Option.bind_eq_some_iff.mp follows
      rw [read_cons step, plays_cons step, List.foldlM_cons]
      simp only [ih follows]

theorem map_snd_plays (follows : kind.follow? role (tokens.map Token.kind) = some reached) :
    (kind.plays role tokens).map Prod.snd = tokens := by
  induction tokens generalizing role with
  | nil => rfl
  | cons next tokens ih =>
      obtain ⟨played, step, follows⟩ := Option.bind_eq_some_iff.mp follows
      rw [plays_cons step, List.map_cons, ih follows]

/-! ## Names that get values -/

theorem writtenNames_played (assigns : kind.assigns = true) (fits : role.fits first.kind = true)
    (follows : kind.follow? role (tokens.map Token.kind) = some reached) :
    writtenNames (first :: tokens) =
      (justBefore .equals ((role, first) :: kind.plays role tokens)).map (·.2.name) := by
  induction tokens generalizing first role with
  | nil => rfl
  | cons next tokens ih =>
      obtain ⟨played, step, follows⟩ := Option.bind_eq_some_iff.mp follows
      have fitsNext := (next?_some step).1
      have later := ih fitsNext follows
      rw [plays_cons step, justBefore_cons_cons, writtenNames, later]
      by_cases equals : played = .equals
      · subst equals
        have sign : next.kind = .equals := by simpa [Role.fits] using fitsNext
        have named : role = .name := by
          rcases assigning_step assigns fits step with ⟨-, -, other⟩ | ⟨-, -, isName⟩
          · cases other
          · exact isName rfl
        subst named
        have spelled : first.kind = .variableName := by simpa [Role.fits] using fits
        simp [sign, spelled]
      · have sign : next.kind ≠ .equals := by
          intro sign
          rw [sign] at fitsNext
          cases played <;> first | exact equals rfl | cases fitsNext
        simp [sign, equals]

/-! ## Declared names -/

/-- In a declaration, names stand at its start and after its commas, and nowhere else. -/
theorem declaration_step {isFinal : Bool} {second : TokenKind} (inside : role ≠ .finalWord)
    (step : Role.inDeclaration isFinal role second = some played) :
    (played = .name ↔ (role = .typeWord ∨ role = .comma) ∧ second = .variableName) ∧
      (played = .comma ↔ second = .comma) ∧ played ≠ .typeWord ∧ played ≠ .finalWord := by
  have notValue : TokenKind.comma.isValue = false := rfl
  revert step
  fun_cases Role.inDeclaration isFinal role second <;> intro step <;> cases step <;> simp_all
  rintro rfl
  simp_all

theorem namesAfter_played {isFinal : Bool}
    (next : ∀ role second, kind.next? role second = Role.inDeclaration isFinal role second)
    (inside : role ≠ .finalWord)
    (follows : kind.follow? role (tokens.map Token.kind) = some reached) :
    namesAfter (role == .typeWord || role == .comma) tokens =
        (playing .name (kind.plays role tokens)).map Token.name ∧
      playing .typeWord (kind.plays role tokens) = [] := by
  induction tokens generalizing role with
  | nil => exact ⟨rfl, rfl⟩
  | cons token tokens ih =>
      obtain ⟨played, step, follows⟩ := Option.bind_eq_some_iff.mp follows
      obtain ⟨name, comma, notType, notFinal⟩ := declaration_step inside (next _ _ ▸ step)
      obtain ⟨names, types⟩ := ih notFinal follows
      have atName : (played == .typeWord || played == .comma) = (token.kind == .comma) := by
        rw [Bool.eq_iff_iff]
        simp [notType, comma]
      rw [plays_cons step, playing_cons, playing_cons, namesAfter, ← atName, names, types]
      refine ⟨?_, if_neg notType⟩
      by_cases named : played = .name
      · obtain ⟨starts, spelled⟩ := name.mp named
        have starts : (role == .typeWord || role == .comma) = true := by simpa using starts
        simp [named, starts, spelled]
      · have other : ¬((role == .typeWord || role == .comma) && token.kind == .variableName) := by
          simpa [name] using named
        rw [if_neg named, if_neg other]

end LineKind

/-! ## Parameters -/

/-- Some parameters are what the roles of a header make them: the names played, the types played,
each before its name, and final where `final` is played right before the type. -/
structure ParametersPlayed (roles : List (Role × Token)) (parameters : List Parameter) : Prop where
  names : parameters.map Parameter.name = (playing .name roles).map Token.name
  types : parameters.map (some ·.type) =
    (playing .typeWord roles).map (·.kind.declaredType?)
  finals : parameters.map Parameter.isFinal =
    (justBefore .typeWord roles).map (·.1 == .finalWord)

/-- A parameter starts with its type or with `final`. -/
theorem parameter_step {role played : Role} {second : TokenKind}
    (starts : role = .methodName ∨ role = .comma ∨ role = .finalWord)
    (step : Role.inMethodHeader role second = some played) :
    role = .methodName ∧ second = .rightParen ∧ played = .closeParen ∨
      role ≠ .finalWord ∧ second = .finalWord ∧ played = .finalWord ∨
      second.isTypeWord = true ∧ played = .typeWord := by
  revert starts step
  fun_cases Role.inMethodHeader role second <;> intro starts step <;> cases step <;> simp_all

/-- After its type a parameter has its name, and then a comma or the end of the header. -/
theorem parameter_name {tokens : List Token}
    (member : tokens.map Token.kind ∈ Sentence.afterInMethodHeader .typeWord) :
    ∃ name next rest, tokens = name :: next :: rest ∧ name.kind = .variableName ∧
      (next.kind = .comma ∧ rest.map Token.kind ∈ Sentence.afterInMethodHeader .comma ∨
        next.kind = .rightParen ∧
          rest.map Token.kind ∈ Sentence.afterInMethodHeader .closeParen) := by
  rcases tokens with _ | ⟨name, _ | ⟨next, rest⟩⟩
  · simp [Sentence.afterInMethodHeader, Sentence.name] at member
  · simp [Sentence.afterInMethodHeader, Sentence.name, Sentence.closing] at member
  · obtain ⟨_, step, member⟩ := Sentence.cons_mem_afterInMethodHeader.mp member
    obtain ⟨played, stepNext, member⟩ := Sentence.cons_mem_afterInMethodHeader.mp member
    refine ⟨name, next, rest, rfl, ?_⟩
    cases named : name.kind <;> rw [named] at step <;> cases step
    cases kind : next.kind <;> rw [kind] at stepNext <;> cases stepNext <;> simp [member]

section Parameters

variable {isFinal : Bool} {token name next : Token} {type : ValueType} {rest : List Token}

theorem parametersAfter_paren (paren : token.kind = .rightParen) :
    parametersAfter isFinal (token :: rest) = [] := by
  obtain ⟨kind, _⟩ := token
  cases paren
  cases rest <;> rfl

theorem parametersAfter_final (final : token.kind = .finalWord) :
    parametersAfter false (token :: rest) = parametersAfter true rest := by
  obtain ⟨kind, _⟩ := token
  cases final
  rw [parametersAfter]
  rfl

theorem parametersAfter_comma (declared : token.kind.declaredType? = some type)
    (named : name.kind = .variableName) (comma : next.kind = .comma) :
    parametersAfter isFinal (token :: name :: next :: rest) =
      ⟨name.name, type, isFinal⟩ :: parametersAfter false rest := by
  obtain ⟨kind, _⟩ := next
  cases comma
  rw [parametersAfter]
  · simp only [declared, named]
  · rintro _ rfl
    cases declared

theorem parametersAfter_last (declared : token.kind.declaredType? = some type)
    (named : name.kind = .variableName) (paren : next.kind = .rightParen) :
    parametersAfter isFinal (token :: name :: next :: rest) =
      [⟨name.name, type, isFinal⟩] := by
  obtain ⟨kind, _⟩ := next
  cases paren
  rw [parametersAfter]
  · simp only [declared, named]
  · rintro _ rfl
    cases declared
  · rintro _ _ ⟨⟩

end Parameters

theorem plays_closed {tokens : List Token}
    (member : tokens.map Token.kind ∈ Sentence.afterInMethodHeader .closeParen) :
    ∃ brace, LineKind.methodHeader.plays .closeParen tokens = [(.openBrace, brace)] := by
  rcases tokens with _ | ⟨brace, rest⟩
  · simp [Sentence.afterInMethodHeader] at member
  · simp [Sentence.afterInMethodHeader] at member
    obtain ⟨opens, rfl⟩ := member
    exact ⟨brace, by simp [LineKind.plays, LineKind.next?, Role.inMethodHeader, opens]⟩

theorem declaredType?_of_isTypeWord {kind : TokenKind} (word : kind.isTypeWord = true) :
    ∃ type, kind.declaredType? = some type := by
  cases kind <;> first | exact ⟨_, rfl⟩ | cases word

theorem parametersAfter_played {role : Role} {before : Token} {tokens : List Token}
    (starts : role = .methodName ∨ role = .comma ∨ role = .finalWord)
    (member : tokens.map Token.kind ∈ Sentence.afterInMethodHeader role) :
    ParametersPlayed ((role, before) :: LineKind.methodHeader.plays role tokens)
      (parametersAfter (role == .finalWord) tokens) := by
  have notRole : role ≠ .name ∧ role ≠ .typeWord := by
    rcases starts with rfl | rfl | rfl <;> simp
  match tokens with
  | [] =>
      rcases starts with rfl | rfl | rfl <;>
        simp [Sentence.afterInMethodHeader, Sentence.separated, Sentence.parameter,
          Sentence.typeWord, Sentence.closing] at member
  | token :: rest =>
      obtain ⟨played, step, member⟩ := Sentence.cons_mem_afterInMethodHeader.mp member
      rw [LineKind.plays_cons (show LineKind.methodHeader.next? role token.kind = _ from step)]
      rcases parameter_step starts step with ⟨rfl, paren, rfl⟩ | ⟨other, final, rfl⟩ | ⟨word, rfl⟩
      · obtain ⟨brace, closed⟩ := plays_closed member
        rw [parametersAfter_paren paren, closed]
        exact ⟨by simp, by simp, by simp⟩
      · have inner : ParametersPlayed
            ((.finalWord, token) :: LineKind.methodHeader.plays .finalWord rest)
            (parametersAfter true rest) := parametersAfter_played (.inr (.inr rfl)) member
        have notFinal : (role == .finalWord) = false := by simpa using other
        rw [notFinal, parametersAfter_final final]
        exact ⟨by simpa [notRole] using inner.names, by simpa [notRole] using inner.types,
          by simpa using inner.finals⟩
      · obtain ⟨type, declared⟩ := declaredType?_of_isTypeWord word
        obtain ⟨name, next, more, rfl, named, ⟨comma, member⟩ | ⟨paren, member⟩⟩ :=
          parameter_name member
        all_goals
          have asName : LineKind.methodHeader.next? .typeWord name.kind = some .name := by
            rw [named]
            rfl
        · have asComma : LineKind.methodHeader.next? .name next.kind = some .comma := by
            rw [comma]
            rfl
          have inner : ParametersPlayed
              ((.comma, next) :: LineKind.methodHeader.plays .comma more)
              (parametersAfter false more) := parametersAfter_played (.inr (.inl rfl)) member
          rw [parametersAfter_comma declared named comma, LineKind.plays_cons asName,
            LineKind.plays_cons asComma]
          exact ⟨by simpa [notRole] using inner.names,
            by simpa [notRole, declared] using inner.types, by simpa using inner.finals⟩
        · obtain ⟨brace, closed⟩ := plays_closed member
          have asParen : LineKind.methodHeader.next? .name next.kind = some .closeParen := by
            rw [paren]
            rfl
          rw [parametersAfter_last declared named paren, LineKind.plays_cons asName,
            LineKind.plays_cons asParen, closed]
          exact ⟨by simp [notRole], by simp [notRole, declared], by simp⟩
termination_by tokens.length

/-! ## Lines -/

namespace Line

variable {line : Line} {first : Token} {rest : List Token}

theorem checkForm_congr {other : Line} (kind : line.kind = other.kind)
    (tokens : line.tokens = other.tokens) : line.checkForm = other.checkForm := by
  obtain ⟨_, _, _, _⟩ := line
  obtain ⟨_, _, _, _⟩ := other
  cases kind
  cases tokens
  rfl

theorem roles_eq (shape : line.tokens = first :: rest) :
    line.roles = (line.kind.opening, first) :: line.kind.plays line.kind.opening rest := by
  rw [roles, shape]

theorem map_snd_roles (shape : line.tokens = first :: rest)
    (start : line.kind.begins first.kind = true) (form : line.checkForm = .ok ())
    (kind : line.kind ≠ .comment) : line.roles.map Prod.snd = line.tokens := by
  obtain ⟨reached, follows, -⟩ := follows_of_form shape start form kind
  rw [roles_eq shape, shape, List.map_cons, LineKind.map_snd_plays follows]

/-- A visitor of the reader comes upon the tokens of a line in their roles. -/
theorem read_eq_foldlM_roles {σ : Type} {visit : σ → Role → Token → Except Cause σ} {state : σ}
    (shape : line.tokens = first :: rest) (start : line.kind.begins first.kind = true)
    (form : line.checkForm = .ok ()) (kind : line.kind ≠ .comment) :
    line.read visit state =
      line.roles.tail.foldlM (fun state pair => visit state pair.1 pair.2) state := by
  obtain ⟨reached, follows, -⟩ := follows_of_form shape start form kind
  rw [read, roles_eq shape, shape]
  exact LineKind.read_eq_foldlM_plays follows

theorem written_played (shape : line.tokens = first :: rest)
    (start : line.kind.begins first.kind = true) (form : line.checkForm = .ok ()) :
    line.written =
      if line.kind.assigns then (justBefore .equals line.roles).map (·.2.name) else [] := by
  rw [written]
  split
  · rename_i assigns
    obtain ⟨reached, follows, -⟩ :=
      follows_of_form shape start form (not_comment_of_assigns assigns)
    rw [roles_eq shape, shape]
    exact LineKind.writtenNames_played assigns (LineKind.opening_fits start) follows
  · rfl

/-- A declaration declares the names that it plays, of the one type that it plays. -/
theorem declared_played (shape : line.tokens = first :: rest)
    (start : line.kind.begins first.kind = true) (form : line.checkForm = .ok ())
    (kind : line.kind = .declaration ∨ line.kind = .finalDeclaration) :
    ∃ word type, playing .typeWord line.roles = [word] ∧ word.kind.declaredType? = some type ∧
      line.declared = (playing .name line.roles).map fun token =>
        { name := token.name
          type
          scope := line.scope
          isFinal := line.kind == .finalDeclaration } := by
  have notComment : line.kind ≠ .comment := by rcases kind with kind | kind <;> simp [kind]
  obtain ⟨reached, follows, done⟩ := follows_of_form shape start form notComment
  have notFinal : Role.typeWord ≠ .finalWord := nofun
  rcases kind with kind | kind <;> rw [kind] at start follows done
  · obtain ⟨type, declared⟩ := declaredType?_of_isTypeWord start
    have next (role : Role) (second : TokenKind) :
        LineKind.declaration.next? role second = Role.inDeclaration false role second := rfl
    obtain ⟨names, types⟩ := LineKind.namesAfter_played next notFinal follows
    have names : namesAfter true rest = _ := names
    refine ⟨first, type, ?_, declared, ?_⟩
    · simp [roles_eq shape, kind, LineKind.opening, types]
    · simp [Line.declared, roles_eq shape, shape, kind, LineKind.opening, declared, names]
  · rcases rest with _ | ⟨word, rest⟩
    · cases follows
      have ends : LineKind.finalDeclaration.terminator? = some .semicolon := rfl
      cases (LineKind.nil_mem_completions ends).mp done
    · obtain ⟨played, step, follows⟩ := Option.bind_eq_some_iff.mp follows
      have afterFinal : (if word.kind.isTypeWord then some Role.typeWord else none) = some played :=
        step
      split at afterFinal
      · rename_i isWord
        cases afterFinal
        obtain ⟨type, declared⟩ := declaredType?_of_isTypeWord isWord
        have next (role : Role) (second : TokenKind) :
            LineKind.finalDeclaration.next? role second = Role.inDeclaration true role second := rfl
        obtain ⟨names, types⟩ := LineKind.namesAfter_played next notFinal follows
        have names : namesAfter true rest = _ := names
        have roles : line.roles = (.finalWord, first) :: (.typeWord, word) ::
            LineKind.finalDeclaration.plays .typeWord rest := by
          rw [roles_eq shape, kind, LineKind.plays_cons step]
          rfl
        refine ⟨word, type, ?_, declared, ?_⟩
        · simp [roles, types]
        · simp [Line.declared, roles, shape, kind, declared, names]
      · cases afterFinal

/-- The second token of a header names the method, and its parameters are those that it plays. -/
theorem header_played (shape : line.tokens = first :: rest)
    (start : line.kind.begins first.kind = true) (form : line.checkForm = .ok ())
    (kind : line.kind = .methodHeader) :
    ∃ method parameters, line.tokens[1]? = some method ∧ method.kind = .methodName ∧
      line.header? = some (method.name, parameters) ∧ ParametersPlayed line.roles parameters := by
  obtain ⟨method, more, rfl, named, header⟩ := header_shape shape start form kind
  refine ⟨method, _, by rw [shape]; rfl, named, header, ?_⟩
  have sentence := (checkForm_ok_iff shape start).mp form
  rw [shape, List.map_cons, LineKind.cons_mem_sentences, kind] at sentence
  have member : (method :: more).map Token.kind ∈ Sentence.afterInMethodHeader .voidWord :=
    sentence.2
  obtain ⟨played, step, member⟩ := Sentence.cons_mem_afterInMethodHeader.mp member
  rw [named] at step
  cases step
  have parameters : ParametersPlayed
      ((.methodName, method) :: LineKind.methodHeader.plays .methodName more)
      (parametersAfter false more) := parametersAfter_played (.inl rfl) member
  have roles : line.roles = (.voidWord, first) :: (.methodName, method) ::
      LineKind.methodHeader.plays .methodName more := by
    have asMethod : LineKind.methodHeader.next? .voidWord method.kind = some .methodName := by
      rw [named]
      rfl
    rw [roles_eq shape, kind, ← LineKind.plays_cons asMethod]
    rfl
  rw [roles]
  exact ⟨by simpa using parameters.names, by simpa using parameters.types,
    by simpa using parameters.finals⟩

end Line

/-! ## What a line adds -/

/-- A line with a form adds to the symbols what its tokens play. A declaration adds a variable for
each name, a header its method and a variable for each parameter, and no other line adds anything.
The names that the pass for first values takes up are those right before an equals sign. -/
theorem register_adds_played {number : UInt32} {tokens : List Token} {registry next : Registry}
    {raw line : Line} (made : Line.ofTokens number tokens = .ok raw) (form : raw.checkForm = .ok ())
    (registered : registry.register raw = (next, .ok line)) :
    (line.number = number ∧ line.kind = raw.kind ∧ line.tokens = tokens ∧
        (line.kind ≠ .comment → line.roles.map Prod.snd = tokens)) ∧
      (line.kind = .declaration ∨ line.kind = .finalDeclaration →
        ∃ word type, playing .typeWord line.roles = [word] ∧ word.kind.declaredType? = some type ∧
          next.symbols.methods = registry.symbols.methods ∧
          next.symbols.vars.records = registry.symbols.vars.records ++
            (playing .name line.roles).map fun token =>
              { name := token.name
                type
                scope := registry.scope
                isFinal := line.kind == .finalDeclaration
                initialization? := none }) ∧
      (line.kind = .methodHeader →
        ∃ method parameters, tokens[1]? = some method ∧
          next.scope = registry.scope.child (.method method.name) ∧
          next.symbols.methods.records = registry.symbols.methods.records ++
            [⟨method.name, parameters.map Variable.type⟩] ∧
          next.symbols.vars.records = registry.symbols.vars.records ++ parameters ∧
          parameters.map Variable.name = (playing .name line.roles).map Token.name ∧
          parameters.map (some ·.type) =
            (playing .typeWord line.roles).map (·.kind.declaredType?) ∧
          parameters.map Variable.isFinal =
            (justBefore .typeWord line.roles).map (·.1 == .finalWord) ∧
          ∀ v ∈ parameters, v.scope = next.scope ∧
            v.initialization? = some ⟨number, next.scope⟩) ∧
      (line.kind ≠ .declaration → line.kind ≠ .finalDeclaration → line.kind ≠ .methodHeader →
        next.symbols = registry.symbols) ∧
      line.written =
        if line.kind.assigns then (justBefore .equals line.roles).map (·.2.name) else [] := by
  obtain ⟨first, rest, rfl, start, made⟩ := Line.ofTokens_ok made
  obtain ⟨sameNumber, sameKind, sameTokens⟩ := Registry.register_same registered
  have rawNumber : raw.number = number := by rw [made]
  have rawTokens : raw.tokens = first :: rest := by rw [made]
  rw [← sameKind] at start
  rw [← Line.checkForm_congr sameKind sameTokens] at form
  have shape : line.tokens = first :: rest := sameTokens.trans rawTokens
  have takes := Registry.takes_of_register registered fun kind => by
    obtain ⟨method, parameters, -, -, header, -⟩ := Line.header_played shape start form kind
    exact ⟨_, _, header⟩
  refine ⟨⟨sameNumber.trans rawNumber, sameKind, shape, fun kind => ?_⟩, fun kind => ?_,
    fun kind => ?_, ?_, Line.written_played shape start form⟩
  · exact shape ▸ Line.map_snd_roles shape start form kind
  · obtain ⟨word, type, types, declared, names⟩ := Line.declared_played shape start form kind
    obtain ⟨vars, scope, added, rfl⟩ := takes.of_declaration kind
    refine ⟨word, type, types, declared, rfl, ?_⟩
    rw [← scope, ← names]
    exact VariableTable.declareAll_ok added
  · obtain ⟨method, parameters, second, -, header, played⟩ :=
      Line.header_played shape start form kind
    obtain ⟨_, _, methods, vars, found, fresh, added, scope, entered, symbols⟩ :=
      takes.of_header kind
    rw [header] at found
    cases found
    let body := line.scope.child (.method method.name)
    refine ⟨method, parameters.map (·.toVariable line.number body), shape ▸ second, scope ▸ entered,
      ?_, ?_, ?_, ?_, ?_, ?_⟩
    · rw [symbols, (MethodTable.declare_ok fresh).2, List.map_map]
      rfl
    · rw [symbols]
      exact VariableTable.declareAll_ok added
    · rw [← played.names, List.map_map]
      rfl
    · rw [← played.types, List.map_map]
      rfl
    · rw [← played.finals, List.map_map]
      rfl
    · intro v member
      obtain ⟨parameter, -, rfl⟩ := List.mem_map.mp member
      rw [entered, ← sameNumber.trans rawNumber]
      exact ⟨rfl, rfl⟩
  · exact takes.symbols_of_other

/-- A header with two parameters, of which the first is final. -/
theorem register_adds_played_parameters :
    ∃ raw next line, Line.ofTokens 1 (tokens "void f(final int a, double b) \x7b") = .ok raw ∧
      raw.checkForm = .ok () ∧ Registry.register {} raw = (next, .ok line) ∧
      next.symbols.methods.records.map Method.name = ["f"] ∧
      next.symbols.vars.records.map (fun v => (v.name, v.isFinal)) =
        [("a", true), ("b", false)] := by
  let header := tokens "void f(final int a, double b) \x7b"
  let raw : Line := ⟨1, .methodHeader, .global, header⟩
  have made : Line.ofTokens 1 header = .ok raw := by decide +kernel
  have form : raw.checkForm = .ok () := by decide +kernel
  have succeeds : (Registry.register {} raw).2 = .ok raw := by decide +kernel
  obtain ⟨next, registered⟩ : ∃ next, Registry.register {} raw = (next, .ok raw) := by
    generalize Registry.register {} raw = result at succeeds
    exact ⟨result.1, Prod.ext rfl succeeds⟩
  have named : header[1]?.map Token.name = some "f" := by decide +kernel
  have playedNames : (playing .name raw.roles).map Token.name = ["a", "b"] := by decide +kernel
  have playedFinals : (justBefore .typeWord raw.roles).map (·.1 == .finalWord) = [true, false] := by
    decide +kernel
  obtain ⟨method, parameters, second, -, methods, vars, names, -, finals, -⟩ :=
    (register_adds_played made form registered).2.2.1 rfl
  rw [second] at named
  rw [playedNames] at names
  rw [playedFinals] at finals
  refine ⟨raw, next, raw, made, form, registered, ?_, ?_⟩
  · rw [methods]
    simpa using named
  · rw [vars, ← List.zip_map', List.map_append, List.map_append, names, finals]
    rfl

end SJava
