import SJava.Verifier
import SJava.Proofs.Form

/-!
# Runs of the verifier

What the registry does with a line that it takes in and that is well formed (`Registry.Takes`), and
the registries and lines that lines fed one after the other lead to (`Recorded`). Facts about all
runs go by induction on `Recorded`, with one case of `Takes` for each way to take in a line, and
`recorded_of_feedAll` brings them to the verifier.
-/

namespace SJava

theorem Line.header_shape {line : Line} {first : Token} {rest : List Token}
    (shape : line.tokens = first :: rest) (start : line.kind.begins first.kind = true)
    (form : line.checkForm = .ok ()) (kind : line.kind = .methodHeader) :
    ∃ method more, rest = method :: more ∧ method.kind = .methodName ∧
      line.header? = some (method.name, parametersAfter false more) := by
  have sentence := (checkForm_ok_iff shape start).mp form
  rw [shape, List.map_cons, LineKind.cons_mem_sentences, kind] at sentence
  rw [kind] at start
  have void : first.kind = .voidWord := by simpa [LineKind.begins] using start
  cases rest with
  | nil => simp [LineKind.completions, LineKind.opening, Sentence.afterInMethodHeader] at sentence
  | cons method more =>
      have named : method.kind = .methodName := by
        simp [LineKind.completions, LineKind.opening, Sentence.afterInMethodHeader] at sentence
        exact sentence.2.1
      refine ⟨method, more, rfl, named, ?_⟩
      rw [header?, shape, List.dropWhile_cons_of_pos (by simp [void]),
        List.dropWhile_cons_of_neg (by simp [named])]

theorem Line.WellFormed.header {line : Line} (h : line.WellFormed)
    (kind : line.kind = .methodHeader) :
    ∃ name parameters, line.header? = some (name, parameters) := by
  obtain ⟨first, rest, shape, start⟩ := h.begun
  obtain ⟨method, more, -, -, header⟩ := Line.header_shape shape start h.form kind
  exact ⟨_, _, header⟩

namespace Registry

/-- The ways to take in a line that is well formed. -/
inductive Takes (registry : Registry) (line : Line) : Registry → Prop
  | declaration {vars : VariableTable}
      (kind : line.kind = .declaration ∨ line.kind = .finalDeclaration)
      (scope : line.scope = registry.scope)
      (declared : registry.symbols.vars.declareAll line.declared = (vars, .ok ())) :
      Takes registry line { registry with symbols := { registry.symbols with vars } }
  | method {name : String} {parameters : List Parameter} {methods : MethodTable}
      {vars : VariableTable} (kind : line.kind = .methodHeader)
      (scope : line.scope = registry.scope)
      (header : line.header? = some (name, parameters))
      (fresh : registry.symbols.methods.declare ⟨name, parameters.map Parameter.type⟩ = .ok methods)
      (declared : registry.symbols.vars.declareAll
        (parameters.map (·.toVariable line.number (registry.scope.child (.method name)))) =
          (vars, .ok ())) :
      Takes registry line
        { registry with
          scope := registry.scope.child (.method name)
          symbols := { vars, methods } }
  | ifBlock (kind : line.kind = .ifHeader) (scope : line.scope = registry.scope) :
      Takes registry line
        { registry with
          scope := registry.scope.child (.ifBlock (registry.ifCount + 1))
          ifCount := registry.ifCount + 1 }
  | whileBlock (kind : line.kind = .whileHeader) (scope : line.scope = registry.scope) :
      Takes registry line
        { registry with
          scope := registry.scope.child (.whileBlock (registry.whileCount + 1))
          whileCount := registry.whileCount + 1 }
  | close {segment : Segment} (kind : line.kind = .closingBracket)
      (scope : registry.scope = line.scope.child segment) :
      Takes registry line { registry with scope := line.scope }
  | other (kind : line.kind = .assignment ∨ line.kind = .methodCall ∨ line.kind = .comment ∨
        line.kind = .methodReturn) (scope : line.scope = registry.scope) :
      Takes registry line registry

variable {registry next : Registry} {raw line taken : Line}

theorem declareVariables_ok (h : registry.declareVariables line = (next, .ok taken)) :
    taken = line ∧ ∃ vars, registry.symbols.vars.declareAll line.declared = (vars, .ok ()) ∧
      next = { registry with symbols := { registry.symbols with vars } } := by
  unfold declareVariables at h
  split at h
  rename_i vars outcome declared
  cases outcome with
  | error => cases h
  | ok =>
      cases h
      exact ⟨rfl, vars, declared, rfl⟩

theorem declareMethod_ok {name : String} {parameters : List Parameter}
    (header : line.header? = some (name, parameters))
    (h : registry.declareMethod line = (next, .ok taken)) :
    taken = line ∧ ∃ methods vars,
      registry.symbols.methods.declare ⟨name, parameters.map Parameter.type⟩ = .ok methods ∧
      registry.symbols.vars.declareAll
        (parameters.map (·.toVariable line.number (registry.scope.child (.method name)))) =
          (vars, .ok ()) ∧
      next =
        { registry with
          scope := registry.scope.child (.method name)
          symbols := { vars, methods } } := by
  simp only [declareMethod, header] at h
  split at h
  · cases h
  · rename_i methods fresh
    cases declared : registry.symbols.vars.declareAll
      (parameters.map (·.toVariable line.number (registry.scope.child (.method name)))) with
    | mk vars outcome =>
        rw [declared] at h
        cases outcome with
        | error => cases h
        | ok =>
            cases h
            exact ⟨rfl, methods, vars, fresh, rfl, rfl⟩

theorem declareMethod_headless (header : line.header? = none) :
    registry.declareMethod line = (registry, .ok line) := by
  rw [declareMethod, header]

theorem register_same (h : registry.register raw = (next, .ok line)) :
    line.number = raw.number ∧ line.kind = raw.kind ∧ line.tokens = raw.tokens := by
  unfold register at h
  split at h
  · obtain ⟨rfl, _⟩ := declareVariables_ok h
    exact ⟨rfl, rfl, rfl⟩
  · obtain ⟨rfl, _⟩ := declareVariables_ok h
    exact ⟨rfl, rfl, rfl⟩
  · cases header : Line.header? { raw with scope := registry.scope } with
    | none =>
        rw [declareMethod_headless header] at h
        cases h
        exact ⟨rfl, rfl, rfl⟩
    | some found =>
        obtain ⟨rfl, _⟩ := declareMethod_ok header h
        exact ⟨rfl, rfl, rfl⟩
  case h_6 =>
    split at h <;> cases h
    exact ⟨rfl, rfl, rfl⟩
  all_goals
    cases h
    exact ⟨rfl, rfl, rfl⟩

theorem takes_of_register (h : registry.register raw = (next, .ok line))
    (named : line.kind = .methodHeader →
      ∃ name parameters, line.header? = some (name, parameters)) :
    registry.Takes line next := by
  unfold register at h
  split at h
  case h_1 kind =>
    obtain ⟨rfl, vars, declared, rfl⟩ := declareVariables_ok h
    exact .declaration (.inl kind) rfl declared
  case h_2 kind =>
    obtain ⟨rfl, vars, declared, rfl⟩ := declareVariables_ok h
    exact .declaration (.inr kind) rfl declared
  case h_3 kind =>
    cases header : Line.header? { raw with scope := registry.scope } with
    | none =>
        rw [declareMethod_headless header] at h
        cases h
        obtain ⟨name, parameters, found⟩ := named kind
        rw [header] at found
        cases found
    | some found =>
        obtain ⟨name, parameters⟩ := found
        obtain ⟨rfl, methods, vars, fresh, declared, rfl⟩ := declareMethod_ok header h
        exact .method kind rfl header fresh declared
  case h_4 kind =>
    cases h
    exact .ifBlock kind rfl
  case h_5 kind =>
    cases h
    exact .whileBlock kind rfl
  case h_6 kind =>
    split at h
    · cases h
    · rename_i segment outer popped
      cases h
      exact .close kind (Scope.eq_child_of_pop? popped)
  case h_7 kind =>
    cases h
    exact .other (.inl kind) rfl
  case h_8 kind =>
    cases h
    exact .other (.inr (.inl kind)) rfl
  case h_9 kind =>
    cases h
    exact .other (.inr (.inr (.inl kind))) rfl
  case h_10 kind =>
    cases h
    exact .other (.inr (.inr (.inr kind))) rfl

theorem enter_ok {number : UInt32} {text : String}
    (h : registry.enter number text = (next, .ok line)) :
    ∃ raw, Line.ofTokens number (tokens text) = .ok raw ∧
      registry.register raw = (next, .ok line) := by
  unfold enter at h
  split at h
  · cases h
  · rename_i raw made
    exact ⟨raw, made, h⟩

theorem enter_begun {number : UInt32} {text : String}
    (entered : registry.enter number text = (next, .ok line)) :
    line.number = number ∧ line.tokens = tokens text ∧
      ∃ first rest, line.tokens = first :: rest ∧ line.kind.begins first.kind = true := by
  obtain ⟨raw, made, registered⟩ := enter_ok entered
  obtain ⟨sameNumber, kind, sameTokens⟩ := register_same registered
  obtain ⟨first, rest, shape, start, rawShape⟩ := Line.ofTokens_ok made
  have rawNumber : raw.number = number := by rw [rawShape]
  have rawTokens : raw.tokens = tokens text := by rw [rawShape]
  exact ⟨sameNumber.trans rawNumber, sameTokens.trans rawTokens, first, rest,
    by rw [sameTokens, rawTokens, shape], kind ▸ start⟩

theorem enter_formed {number : UInt32} {text : String}
    (entered : registry.enter number text = (next, .ok line)) (form : line.checkForm = .ok ()) :
    line.number = number ∧ line.WellFormed ∧ registry.Takes line next := by
  obtain ⟨sameNumber, sameTokens, begun⟩ := enter_begun entered
  have formed : line.WellFormed := ⟨⟨text, sameTokens⟩, begun, form⟩
  obtain ⟨_, -, registered⟩ := enter_ok entered
  exact ⟨sameNumber, formed, takes_of_register registered formed.header⟩

end Registry

namespace Registry.Takes

variable {registry next : Registry} {line : Line}

theorem around_of_opens (takes : registry.Takes line next) (opens : line.kind.opens = true) :
    line.scope = registry.scope := by
  cases takes with
  | declaration _ scope | method _ scope | ifBlock _ scope | whileBlock _ scope | other _ scope =>
      exact scope
  | close kind =>
      rw [kind] at opens
      cases opens

theorem scope_of_opens (takes : registry.Takes line next) (opens : line.kind.opens = true) :
    ∃ segment, next.scope = line.scope.child segment ∧
      (line.kind = .methodHeader → ∃ name, segment = .method name) := by
  cases takes with
  | @method name _ _ _ kind scope _ _ _ =>
      exact ⟨.method name, by rw [scope], fun _ => ⟨name, rfl⟩⟩
  | ifBlock kind scope =>
      exact ⟨_, by rw [scope], fun header => by rw [kind] at header; cases header⟩
  | whileBlock kind scope =>
      exact ⟨_, by rw [scope], fun header => by rw [kind] at header; cases header⟩
  | declaration kind => rcases kind with kind | kind <;> rw [kind] at opens <;> cases opens
  | close kind =>
      rw [kind] at opens
      cases opens
  | other kind => rcases kind with kind | kind | kind | kind <;> rw [kind] at opens <;> cases opens

theorem scope_of_not_opens (takes : registry.Takes line next) (opens : line.kind.opens = false) :
    next.scope = line.scope := by
  cases takes with
  | declaration _ scope => exact scope.symm
  | close => rfl
  | other _ scope => exact scope.symm
  | method kind | ifBlock kind | whileBlock kind =>
      rw [kind] at opens
      cases opens

theorem of_declaration (takes : registry.Takes line next)
    (kind : line.kind = .declaration ∨ line.kind = .finalDeclaration) :
    ∃ vars, line.scope = registry.scope ∧
      registry.symbols.vars.declareAll line.declared = (vars, .ok ()) ∧
      next = { registry with symbols := { registry.symbols with vars } } := by
  cases takes with
  | declaration _ scope declared => exact ⟨_, scope, declared, rfl⟩
  | method other | ifBlock other | whileBlock other | close other => simp [other] at kind
  | other other => rcases other with other | other | other | other <;> simp [other] at kind

theorem of_header (takes : registry.Takes line next) (kind : line.kind = .methodHeader) :
    ∃ name parameters methods vars, line.header? = some (name, parameters) ∧
      registry.symbols.methods.declare ⟨name, parameters.map Parameter.type⟩ = .ok methods ∧
      registry.symbols.vars.declareAll
        (parameters.map (·.toVariable line.number (line.scope.child (.method name)))) =
          (vars, .ok ()) ∧
      line.scope = registry.scope ∧ next.scope = line.scope.child (.method name) ∧
      next.symbols = { vars, methods } := by
  cases takes with
  | method _ scope header fresh declared =>
      rw [← scope] at declared ⊢
      exact ⟨_, _, _, _, header, fresh, declared, rfl, rfl, rfl⟩
  | declaration other => rcases other with other | other <;> simp [kind] at other
  | ifBlock other | whileBlock other | close other => simp [kind] at other
  | other other => rcases other with other | other | other | other <;> simp [kind] at other

theorem of_closing (takes : registry.Takes line next) (kind : line.kind = .closingBracket) :
    ∃ segment, registry.scope = line.scope.child segment := by
  cases takes with
  | close _ scope => exact ⟨_, scope⟩
  | declaration other => rcases other with other | other <;> simp [kind] at other
  | method other | ifBlock other | whileBlock other => simp [kind] at other
  | other other => rcases other with other | other | other | other <;> simp [kind] at other

theorem symbols_of_other (takes : registry.Takes line next)
    (notVariables : line.kind ≠ .declaration) (notFinals : line.kind ≠ .finalDeclaration)
    (notMethod : line.kind ≠ .methodHeader) :
    next.symbols = registry.symbols := by
  cases takes with
  | declaration kind => rcases kind with kind | kind <;> contradiction
  | method kind => contradiction
  | ifBlock | whileBlock | close | other => rfl

end Registry.Takes

theorem toNat_ofNat_succ {n : Nat} (few : n + 1 < 2 ^ 32) : (UInt32.ofNat n + 1).toNat = n + 1 := by
  have one : (1 : UInt32).toNat = 1 := rfl
  rw [UInt32.toNat_add, UInt32.toNat_ofNat']
  omega

/-- The registries and stored lines that lines taken in one after the other lead to. -/
inductive Recorded : Registry → List Line → Prop
  | start : Recorded {} []
  | line {registry next : Registry} {lines : List Line} {line : Line}
      (before : Recorded registry lines) (number : line.number = .ofNat lines.length + 1)
      (form : line.WellFormed) (takes : registry.Takes line next) : Recorded next (lines ++ [line])

namespace Recorded

variable {registry : Registry} {lines : List Line} {line : Line} {i : Nat}

theorem wellFormed (h : Recorded registry lines) : ∀ line ∈ lines, line.WellFormed := by
  induction h with
  | start => exact fun _ member => absurd member List.not_mem_nil
  | line before number form takes ih =>
      intro line member
      rcases List.mem_append.mp member with member | member
      · exact ih line member
      · rwa [List.mem_singleton.mp member]

theorem number (h : Recorded registry lines) (found : lines[i]? = some line) :
    line.number = .ofNat i + 1 := by
  induction h with
  | start => cases found
  | @line registry next lines last before number form takes ih =>
      rcases Nat.lt_or_ge i lines.length with inside | outside
      · rw [List.getElem?_append_left inside] at found
        exact ih found
      · rw [List.getElem?_append_right outside] at found
        rw [List.getElem?_singleton] at found
        split at found
        · cases found
          rw [number, show i = lines.length by omega]
        · cases found

theorem number_toNat (h : Recorded registry lines) (few : lines.length < 2 ^ 32)
    (found : lines[i]? = some line) : line.number.toNat = i + 1 := by
  have inside : i < lines.length := (List.getElem?_eq_some_iff.mp found).1
  rw [h.number found, toNat_ofNat_succ (by omega)]

theorem lt_of_number_lt (h : Recorded registry lines) (few : lines.length < 2 ^ 32) {later : Line}
    {j : Nat} (found : lines[i]? = some line) (foundLater : lines[j]? = some later)
    (order : line.number < later.number) : i < j := by
  rw [UInt32.lt_iff_toNat_lt, h.number_toNat few found, h.number_toNat few foundLater] at order
  omega

theorem split (h : Recorded registry lines) (found : lines[i]? = some line) :
    ∃ before after, Recorded before (lines.take i) ∧ before.Takes line after ∧
      Recorded after (lines.take (i + 1)) := by
  induction h with
  | start => cases found
  | @line registry next lines last before number form takes ih =>
      rcases Nat.lt_or_ge i lines.length with inside | outside
      · rw [List.getElem?_append_left inside] at found
        rw [List.take_append_of_le_length (Nat.le_of_lt inside),
          List.take_append_of_le_length inside]
        exact ih found
      · rw [List.getElem?_append_right outside, List.getElem?_singleton] at found
        split at found
        · cases found
          have here : i = lines.length := by omega
          subst here
          rw [List.take_left, List.take_of_length_le (by simp)]
          exact ⟨registry, next, before, takes, .line before number form takes⟩
        · cases found

end Recorded

namespace Verifier

variable {verifier later : Verifier}

theorem feed_ok {text : String} (fed : verifier.feed text = (later, .ok ())) :
    later = verifier ∨ ∃ line, verifier.registry.enter verifier.nextNumber text =
        (later.registry, .ok line) ∧ line.checkForm = .ok () ∧
          later.lines = verifier.lines.push line := by
  unfold feed at fed
  split at fed
  · cases fed
    exact .inl rfl
  · split at fed
    · cases fed
    · rename_i registry line entered
      cases form : line.checkForm with
      | error cause =>
          rw [form] at fed
          cases fed
      | ok =>
          rw [form] at fed
          cases fed
          exact .inr ⟨line, entered, form, rfl⟩

theorem feed_recorded {text : String} (before : Recorded verifier.registry verifier.lines.toList)
    (fed : verifier.feed text = (later, .ok ())) :
    Recorded later.registry later.lines.toList := by
  rcases feed_ok fed with rfl | ⟨line, entered, form, stored⟩
  · exact before
  · obtain ⟨number, formed, takes⟩ := Registry.enter_formed entered form
    rw [stored, Array.toList_push]
    exact .line before number formed takes

theorem feedAll_recorded {texts : List String}
    (before : Recorded verifier.registry verifier.lines.toList)
    (fed : verifier.feedAll texts = .ok later) :
    Recorded later.registry later.lines.toList := by
  induction texts generalizing verifier with
  | nil =>
      cases fed
      exact before
  | cons text rest ih =>
      rw [feedAll] at fed
      split at fed
      · cases fed
      · rename_i step
        exact ih (feed_recorded before step) fed

theorem recorded_of_feedAll {texts : List String} (fed : feedAll {} texts = .ok verifier) :
    Recorded verifier.registry verifier.lines.toList :=
  feedAll_recorded .start fed

end Verifier

end SJava
