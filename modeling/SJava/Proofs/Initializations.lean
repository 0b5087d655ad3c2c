import SJava.Proofs.Finals
import SJava.Proofs.Lookups

/-!
# Initializations

The pass that looks for first values goes through the pairs of a name and an equals sign, line by
line and from left to right. As a map over the table it is known from the list of all writes
(`VariableTable.assignLines_fst`). Here that list is put in places, each the number of a line and of
a token on it (`placedWrites`). The places come in order, so the first write that hits a record, and
the first whose name stands for nothing, can be told without the list (`find?_eq_some_of_ordered`).
-/

namespace SJava

/-! ## Lists in order -/

section Ordered

variable {α : Type} {before : α → α → Prop} {test : α → Bool} {xs : List α} {x : α}

theorem find?_eq_some_of_ordered (ordered : xs.Pairwise before)
    (asymmetric : ∀ x y, before x y → ¬before y x) :
    xs.find? test = some x ↔
      x ∈ xs ∧ test x = true ∧ ∀ y ∈ xs, before y x → test y = false := by
  induction ordered with
  | nil => simp
  | @cons first rest earlier _ ih =>
      rw [List.find?_cons]
      cases passes : test first with
      | true =>
          constructor
          · intro found
            cases found
            refine ⟨List.mem_cons_self, passes, fun y member order => ?_⟩
            rcases List.mem_cons.mp member with rfl | member
            · exact absurd order (asymmetric _ _ order)
            · exact absurd order (asymmetric _ _ (earlier y member))
          · intro holds
            obtain ⟨member, -, none⟩ := holds
            rcases List.mem_cons.mp member with rfl | member
            · rfl
            · rw [none first List.mem_cons_self (earlier x member)] at passes
              cases passes
      | false =>
          simp only [ih, List.mem_cons, forall_eq_or_imp]
          constructor
          · intro holds
            obtain ⟨member, here, none⟩ := holds
            exact ⟨.inr member, here, fun _ => passes, none⟩
          · intro holds
            obtain ⟨rfl | member, here, -, none⟩ := holds
            · rw [here] at passes
              cases passes
            · exact ⟨member, here, none⟩

theorem mem_takeWhile_of_ordered (ordered : xs.Pairwise before)
    (asymmetric : ∀ x y, before x y → ¬before y x) :
    x ∈ xs.takeWhile test ↔
      x ∈ xs ∧ test x = true ∧ ∀ y ∈ xs, before y x → test y = true := by
  induction ordered with
  | nil => simp
  | @cons first rest earlier _ ih =>
      cases passes : test first with
      | true =>
          rw [List.takeWhile_cons_of_pos passes, List.mem_cons, ih, List.mem_cons,
            List.forall_mem_cons]
          constructor
          · intro holds
            rcases holds with rfl | ⟨member, here, all⟩
            · refine ⟨.inl rfl, passes, fun _ => passes, fun y member order => ?_⟩
              exact absurd order (asymmetric _ _ (earlier y member))
            · exact ⟨.inr member, here, fun _ => passes, all⟩
          · intro holds
            obtain ⟨rfl | member, here, -, all⟩ := holds
            · exact .inl rfl
            · exact .inr ⟨member, here, all⟩
      | false =>
          rw [List.takeWhile_cons_of_neg (by simp [passes])]
          refine iff_of_false List.not_mem_nil fun holds => ?_
          obtain ⟨member, here, all⟩ := holds
          rcases List.mem_cons.mp member with rfl | member
          · rw [here] at passes
            cases passes
          · rw [all first List.mem_cons_self (earlier x member)] at passes
            cases passes

end Ordered

/-! ## Pairs in their places -/

/-- An earlier line, or a token further left on the same line. -/
def Precedes (first second : Nat × Nat) : Prop :=
  first.1 < second.1 ∨ first.1 = second.1 ∧ first.2 < second.2

/-- At a place, the number of a line and of a token on it, a line that assigns has a name with an
equals sign after it. -/
structure PairAt (lines : List Line) (place : Nat × Nat) (line : Line) (name : String) : Prop where
  stored : lines[place.1]? = some line
  assigns : line.kind.assigns = true
  paired : ∃ target sign, line.tokens[place.2]? = some target ∧
    line.tokens[place.2 + 1]? = some sign ∧ target.kind = .variableName ∧ sign.kind = .equals ∧
    target.name = name

def nameAt? (tokens : List Token) (place : Nat) : Option String :=
  match tokens[place]?, tokens[place + 1]? with
  | some target, some sign =>
      if target.kind == .variableName && sign.kind == .equals then some target.name else none
  | _, _ => none

def Line.placedNames (line : Line) : List (Nat × String) :=
  if line.kind.assigns then
    (List.range line.tokens.length).filterMap fun k => (nameAt? line.tokens k).map (k, ·)
  else []

/-- The writes of a program with their places. -/
def placedWrites (lines : List Line) : List ((Nat × Nat) × Write) :=
  lines.zipIdx.flatMap fun (line, i) =>
    line.placedNames.map fun (k, name) => ((i, k), name, ⟨line.number, line.scope⟩)

section

variable {tokens : List Token} {lines : List Line} {line : Line} {name : String}
  {place : Nat × Nat} {k : Nat} {write : Write}

theorem nameAt?_eq_some : nameAt? tokens k = some name ↔
    ∃ target sign, tokens[k]? = some target ∧ tokens[k + 1]? = some sign ∧
      target.kind = .variableName ∧ sign.kind = .equals ∧ target.name = name := by
  rw [nameAt?]
  cases tokens[k]? <;> cases tokens[k + 1]? <;> simp [and_assoc]

theorem writtenNames_eq_filterMap :
    writtenNames tokens = (List.range tokens.length).filterMap (nameAt? tokens) := by
  induction tokens with
  | nil => rfl
  | cons first rest ih =>
      have later : nameAt? (first :: rest) ∘ Nat.succ = nameAt? rest := rfl
      rw [List.length_cons, List.range_succ_eq_map, List.filterMap_cons, List.filterMap_map, later,
        ← ih]
      cases rest with
      | nil => rfl
      | cons second rest =>
          simp only [writtenNames, nameAt?, List.getElem?_cons_zero, List.getElem?_cons_succ]
          split <;> simp_all

theorem Line.map_placedNames : line.placedNames.map Prod.snd = line.written := by
  rw [placedNames, written]
  split
  · rw [writtenNames_eq_filterMap, List.map_filterMap]
    simp only [Option.map_map]
    exact congrArg (List.filterMap · _) (funext fun k => Option.map_id')
  · rfl

theorem Line.mem_placedNames : (k, name) ∈ line.placedNames ↔
    line.kind.assigns = true ∧ nameAt? line.tokens k = some name := by
  rw [placedNames]
  split
  · rename_i assigns
    rw [List.mem_filterMap, and_iff_right assigns]
    constructor
    · intro holds
      obtain ⟨l, -, found⟩ := holds
      obtain ⟨_, found, same⟩ := Option.map_eq_some_iff.mp found
      cases same
      exact found
    · intro found
      refine ⟨k, ?_, by rw [found, Option.map_some]⟩
      obtain ⟨_, _, inside, -⟩ := nameAt?_eq_some.mp found
      exact List.mem_range.mpr (List.getElem?_eq_some_iff.mp inside).1
  · rename_i idle
    exact iff_of_false List.not_mem_nil fun holds => idle holds.1

theorem Line.ordered_placedNames :
    line.placedNames.Pairwise fun first second => first.1 < second.1 := by
  rw [placedNames]
  split
  · rw [List.pairwise_filterMap]
    refine List.pairwise_lt_range.imp fun order first foundFirst second foundSecond => ?_
    obtain ⟨_, -, rfl⟩ := Option.map_eq_some_iff.mp foundFirst
    obtain ⟨_, -, rfl⟩ := Option.map_eq_some_iff.mp foundSecond
    exact order
  · exact .nil

theorem map_placedWrites : (placedWrites lines).map Prod.snd = lines.flatMap Line.writes := by
  have each (pair : Line × Nat) : (pair.1.placedNames.map fun (k, name) =>
        ((pair.2, k), name, (⟨pair.1.number, pair.1.scope⟩ : Initialization))).map Prod.snd =
      pair.1.writes := by
    rw [Line.writes, ← Line.map_placedNames, List.map_map, List.map_map]
    rfl
  have lined : lines.zipIdx.flatMap (fun pair => pair.1.writes) = lines.flatMap Line.writes := by
    rw [← List.flatMap_map, List.zipIdx_map_fst]
  rw [placedWrites, List.map_flatMap, ← lined]
  exact congrArg (List.flatMap · _) (funext each)

theorem mem_placedWrites : (place, write) ∈ placedWrites lines ↔
    ∃ line name, PairAt lines place line name ∧ write = (name, ⟨line.number, line.scope⟩) := by
  rw [placedWrites, List.mem_flatMap]
  constructor
  · intro holds
    obtain ⟨⟨line, i⟩, stored, member⟩ := holds
    obtain ⟨⟨k, name⟩, placed, same⟩ := List.mem_map.mp member
    obtain ⟨assigns, found⟩ := Line.mem_placedNames.mp placed
    cases same
    exact ⟨line, name, ⟨List.mem_zipIdx_iff_getElem?.mp stored, assigns, nameAt?_eq_some.mp found⟩,
      rfl⟩
  · intro holds
    obtain ⟨line, name, ⟨stored, assigns, paired⟩, rfl⟩ := holds
    have placed := Line.mem_placedNames.mpr ⟨assigns, nameAt?_eq_some.mpr paired⟩
    exact ⟨(line, place.1), List.mem_zipIdx_iff_getElem?.mpr stored, List.mem_map_of_mem placed⟩

theorem ordered_placedWrites (lines : List Line) :
    (placedWrites lines).Pairwise fun first second => Precedes first.1 second.1 := by
  rw [placedWrites, List.pairwise_flatMap]
  constructor
  · intro pair _
    rw [List.pairwise_map]
    exact Line.ordered_placedNames.imp fun order => .inr ⟨rfl, order⟩
  · have order : (lines.zipIdx.map Prod.snd).Pairwise (· < ·) := by
      rw [List.zipIdx_map_snd]
      exact List.pairwise_lt_range'
    rw [List.pairwise_map] at order
    refine order.imp fun earlier first inFirst second inSecond => .inl ?_
    obtain ⟨_, -, rfl⟩ := List.mem_map.mp inFirst
    obtain ⟨_, -, rfl⟩ := List.mem_map.mp inSecond
    exact earlier

theorem PairAt.written (pair : PairAt lines place line name) : name ∈ line.written := by
  rw [← Line.map_placedNames]
  have placed := Line.mem_placedNames.mpr ⟨pair.assigns, nameAt?_eq_some.mpr pair.paired⟩
  exact List.mem_map_of_mem placed

theorem Precedes.asymm {first second : Nat × Nat} (order : Precedes first second) :
    ¬Precedes second first := by
  unfold Precedes at order ⊢
  omega

theorem Precedes.trans {first second third : Nat × Nat} (order : Precedes first second)
    (later : Precedes second third) : Precedes first third := by
  unfold Precedes at order later ⊢
  omega

end

namespace VariableTable

/-! ## Where the pass stops -/

/-- All pairs before a place have names that stand for variables. -/
def Reaches (table : VariableTable) (lines : List Line) (place : Nat × Nat) : Prop :=
  ∀ earlier line name, PairAt lines earlier line name → Precedes earlier place →
    table.lookup? name line.scope ≠ none

/-- The first pair of a program whose name stands for nothing. -/
structure StopsAt (table : VariableTable) (lines : List Line) (place : Nat × Nat) (line : Line)
    (name : String) : Prop where
  pair : PairAt lines place line name
  hidden : table.lookup? name line.scope = none
  reached : table.Reaches lines place

variable {table : VariableTable} {lines : List Line} {line : Line} {name : String}
  {place : Nat × Nat} {v : Variable}

theorem assignAll_error_iff {origin : Initialization} {names : List String} {cause : Cause} :
    (table.assignAll origin names).2 = .error cause ↔
      ∃ write, (names.map fun name => (name, origin)).find? (fun write => !table.sees write) =
          some write ∧
        cause = .unbound write.1 write.2.scope := by
  induction names generalizing table with
  | nil => simp [assignAll]
  | cons name names ih =>
      rw [assignAll, List.map_cons, List.find?_cons]
      by_cases seen : table.sees (name, origin) = true
      · rw [assign_of_sees seen]
        show ((table.given [(name, origin)]).assignAll origin names).2 = .error cause ↔ _
        rw [ih, sees_given]
        simp only [seen, Bool.not_true]
      · rw [assign_of_not_sees seen]
        simp only [seen, Bool.not_false, Option.some.injEq, Except.error.injEq, exists_eq_left']
        exact eq_comm

theorem assignLines_error_iff {fault : Fault} :
    (table.assignLines lines).2 = .error fault ↔
      ∃ write, (lines.flatMap Line.writes).find? (fun write => !table.sees write) = some write ∧
        fault = ⟨write.2.line, .unbound write.1 write.2.scope⟩ := by
  induction lines generalizing table with
  | nil => simp [assignLines]
  | cons line lines ih =>
      have after : (table.assignAll ⟨line.number, line.scope⟩ line.written).1 =
          table.given (line.writes.takeWhile table.sees) := assignAll_fst
      rw [assignLines, List.flatMap_cons, List.find?_append]
      cases outcome : table.assignAll ⟨line.number, line.scope⟩ line.written with
      | mk next result =>
          cases result with
          | error cause =>
              obtain ⟨write, found, rfl⟩ := assignAll_error_iff.mp (congrArg Prod.snd outcome)
              have found : line.writes.find? (fun write => !table.sees write) = some write := found
              obtain ⟨_, -, rfl⟩ := List.mem_map.mp (List.mem_of_find?_eq_some found)
              simp only [found, Option.some_or, Option.some.injEq, Except.error.injEq,
                exists_eq_left']
              exact eq_comm
          | ok =>
              have seen : ∀ write ∈ line.writes, table.sees write = true :=
                assignAll_ok_iff.mp (congrArg Prod.snd outcome)
              have none : line.writes.find? (fun write => !table.sees write) = none :=
                List.find?_eq_none.mpr fun write member => by simp [seen write member]
              rw [outcome] at after
              show (next.assignLines lines).2 = .error fault ↔ _
              change next = _ at after
              rw [ih, after, sees_given, none, Option.none_or]

theorem assignLines_stops_iff {fault : Fault} : (table.assignLines lines).2 = .error fault ↔
    ∃ place line name, table.StopsAt lines place line name ∧
      fault = ⟨line.number, .unbound name line.scope⟩ := by
  rw [assignLines_error_iff, ← map_placedWrites]
  simp only [List.find?_map, Option.map_eq_some_iff]
  constructor
  · intro holds
    obtain ⟨_, ⟨⟨place, write⟩, found, rfl⟩, rfl⟩ := holds
    rw [find?_eq_some_of_ordered (ordered_placedWrites _) fun _ _ => Precedes.asymm] at found
    obtain ⟨member, unseen, reached⟩ := found
    obtain ⟨line, name, pair, rfl⟩ := mem_placedWrites.mp member
    refine ⟨place, line, name, ⟨pair, by simpa [sees] using unseen, ?_⟩, rfl⟩
    intro earlier other otherName earlierPair order hidden
    have passed := reached (earlier, _) (mem_placedWrites.mpr ⟨other, otherName, earlierPair, rfl⟩)
      order
    simp [sees, hidden] at passed
  · intro holds
    obtain ⟨place, line, name, ⟨pair, hidden, reached⟩, rfl⟩ := holds
    refine ⟨_, ⟨(place, name, ⟨line.number, line.scope⟩), ?_, rfl⟩, rfl⟩
    rw [find?_eq_some_of_ordered (ordered_placedWrites _) fun _ _ => Precedes.asymm]
    refine ⟨mem_placedWrites.mpr ⟨line, name, pair, rfl⟩, by simp [sees, hidden], ?_⟩
    intro entry member order
    obtain ⟨earlier, write⟩ := entry
    obtain ⟨other, otherName, earlierPair, rfl⟩ := mem_placedWrites.mp member
    have seen := reached earlier other otherName earlierPair order
    simpa [sees, Option.isSome_iff_ne_none] using seen

theorem assignLines_fails_iff : (∃ fault, (table.assignLines lines).2 = .error fault) ↔
    ∃ place line name, PairAt lines place line name ∧ table.lookup? name line.scope = none := by
  constructor
  · intro failed
    obtain ⟨fault, failed⟩ := failed
    obtain ⟨place, line, name, stops, -⟩ := assignLines_stops_iff.mp failed
    exact ⟨place, line, name, stops.pair, stops.hidden⟩
  · intro holds
    obtain ⟨place, line, name, pair, hidden⟩ := holds
    cases outcome : (table.assignLines lines).2 with
    | error fault => exact ⟨fault, rfl⟩
    | ok =>
        have member := List.mem_map_of_mem (f := Prod.snd)
          (mem_placedWrites.mpr ⟨line, name, pair, rfl⟩)
        rw [map_placedWrites] at member
        have seen := assignLines_ok_iff.mp outcome _ member
        simp [sees, hidden] at seen

/-! ## What the pass leaves -/

/-- A line is the first with a pair that stands for a variable, and the pass reaches that pair. -/
structure FirstWrittenAt (table : VariableTable) (lines : List Line) (v : Variable) (i : Nat) :
    Prop where
  written : ∃ k line name, PairAt lines (i, k) line name ∧ table.Reaches lines (i, k) ∧
    table.lookup? name line.scope = some v
  unwritten : ∀ j < i, ∀ k line name, PairAt lines (j, k) line name →
    table.lookup? name line.scope ≠ some v

/-- What the pass makes of a record: a first value stays, and a record without one gets that of the
first line that writes it. -/
structure Becomes (table : VariableTable) (lines : List Line) (v w : Variable) : Prop where
  same : w = { v with initialization? := w.initialization? }
  kept : v.initialization? ≠ none → w = v
  first : v.initialization? = none → ∀ origin, w.initialization? = some origin ↔
    ∃ i line, lines[i]? = some line ∧ table.FirstWrittenAt lines v i ∧
      origin = ⟨line.number, line.scope⟩

variable {write : Write} {origin : Initialization}

theorem mem_reached :
    (place, write) ∈ (placedWrites lines).takeWhile (table.sees ∘ Prod.snd) ↔
      ∃ line name, PairAt lines place line name ∧ write = (name, ⟨line.number, line.scope⟩) ∧
        table.lookup? name line.scope ≠ none ∧ table.Reaches lines place := by
  rw [mem_takeWhile_of_ordered (ordered_placedWrites _) fun _ _ => Precedes.asymm, mem_placedWrites]
  constructor
  · intro holds
    obtain ⟨⟨line, name, pair, rfl⟩, seen, reached⟩ := holds
    refine ⟨line, name, pair, rfl, Option.isSome_iff_ne_none.mp seen, ?_⟩
    intro earlier other otherName earlierPair order
    have passed := reached (earlier, _) (mem_placedWrites.mpr ⟨other, otherName, earlierPair, rfl⟩)
      order
    exact Option.isSome_iff_ne_none.mp passed
  · intro holds
    obtain ⟨line, name, pair, rfl, seen, reached⟩ := holds
    refine ⟨⟨line, name, pair, rfl⟩, Option.isSome_iff_ne_none.mpr seen, ?_⟩
    intro entry member order
    obtain ⟨earlier, write⟩ := entry
    obtain ⟨other, otherName, earlierPair, rfl⟩ := mem_placedWrites.mp member
    exact Option.isSome_iff_ne_none.mpr (reached earlier other otherName earlierPair order)

section Keys

variable (keys : (table.records.map Variable.key).Nodup) (stored : v ∈ table.records)

include keys stored

theorem hits_iff_lookup? :
    table.hits v write = true ↔ table.lookup? write.1 write.2.scope = some v := by
  rw [hits_iff]
  constructor
  · intro holds
    obtain ⟨target, found, key⟩ := holds
    rw [found, List.inj_on_of_nodup_map keys stored (lookup?_mem found) (Prod.ext key.1 key.2)]
  · intro found
    exact ⟨v, found, rfl, rfl⟩

/-- The first write that hits a record is on the first line that writes it. -/
theorem firstValue?_reached :
    table.firstValue? ((lines.flatMap Line.writes).takeWhile table.sees) v = some origin ↔
      ∃ i line, lines[i]? = some line ∧ table.FirstWrittenAt lines v i ∧
        origin = ⟨line.number, line.scope⟩ := by
  have ordered := (ordered_placedWrites lines).sublist
    (List.takeWhile_sublist (table.sees ∘ Prod.snd))
  rw [firstValue?, ← map_placedWrites, List.takeWhile_map, List.find?_map, Option.map_map,
    Option.map_eq_some_iff]
  constructor
  · intro holds
    obtain ⟨⟨⟨i, k⟩, write⟩, found, rfl⟩ := holds
    rw [find?_eq_some_of_ordered ordered fun _ _ => Precedes.asymm] at found
    obtain ⟨member, hit, earliest⟩ := found
    obtain ⟨line, name, pair, rfl, -, reached⟩ := mem_reached.mp member
    have here := (hits_iff_lookup? keys stored).mp hit
    refine ⟨i, line, pair.stored, ⟨⟨k, line, name, pair, reached, here⟩, ?_⟩, rfl⟩
    intro j earlier l other otherName otherPair found
    have order : Precedes (j, l) (i, k) := .inl earlier
    have inside := mem_reached.mpr ⟨other, otherName, otherPair, rfl, by simp [found],
      fun first line name pair before => reached first line name pair (before.trans order)⟩
    have missed := earliest _ inside order
    rw [Function.comp_apply, Bool.eq_false_iff, ne_eq, hits_iff_lookup? keys stored] at missed
    exact missed found
  · intro holds
    obtain ⟨i, line, storedLine, ⟨⟨k, here, name, pair, reached, found⟩, unwritten⟩, rfl⟩ := holds
    cases storedLine.symm.trans pair.stored
    let written : (Nat × Nat) × Write := ((i, k), name, ⟨line.number, line.scope⟩)
    have member : written ∈ (placedWrites lines).takeWhile (table.sees ∘ Prod.snd) :=
      mem_reached.mpr ⟨line, name, pair, rfl, by simp [found], reached⟩
    have hit : (table.hits v ∘ Prod.snd) written = true := (hits_iff_lookup? keys stored).mpr found
    have hits := List.find?_isSome.mpr ⟨written, member, hit⟩
    obtain ⟨⟨⟨j, l⟩, write⟩, first⟩ := Option.isSome_iff_exists.mp hits
    refine ⟨_, first, ?_⟩
    -- The first hit is no later than this one, and on no line before it.
    rw [find?_eq_some_of_ordered ordered fun _ _ => Precedes.asymm] at first
    obtain ⟨inside, hitFirst, earliest⟩ := first
    obtain ⟨other, otherName, otherPair, rfl, -, -⟩ := mem_reached.mp inside
    have notLater : ¬Precedes (i, k) (j, l) := by
      intro order
      rw [earliest written member order] at hit
      cases hit
    have notEarlier : ¬j < i := by
      intro order
      have found := (hits_iff_lookup? keys stored).mp hitFirst
      exact unwritten j order l other otherName otherPair found
    have sameLine : j = i := by
      unfold Precedes at notLater
      omega
    subst sameLine
    cases otherPair.stored.symm.trans pair.stored
    rfl

theorem becomes_valued : table.Becomes lines v
    (table.valued ((lines.flatMap Line.writes).takeWhile table.sees) v) := by
  refine ⟨rfl, fun initialized => ?_, fun blank origin => ?_⟩
  · obtain ⟨origin, found⟩ := Option.ne_none_iff_exists'.mp initialized
    rw [valued, found, Option.some_or, ← found]
  · rw [valued, blank, Option.none_or]
    exact firstValue?_reached keys stored

end Keys

/-- Every record becomes what the first write of it makes of it, in its own place in the table. -/
theorem assignLines_becomes (keys : (table.records.map Variable.key).Nodup) :
    List.Forall₂ (table.Becomes lines) table.records (table.assignLines lines).1.records := by
  rw [assignLines_fst, given, map, List.forall₂_map_right_iff, List.forall₂_same]
  exact fun v stored => becomes_valued keys stored

end VariableTable

/-! ## Programs that were fed -/

section Recorded

variable {registry : Registry} {lines : List Line} {line : Line} {name : String}
  {place : Nat × Nat}

theorem Recorded.exists_declared (h : Recorded registry lines) :
    ∃ calls, registry.symbols.vars = .declared calls := by
  refine ⟨registry.symbols.vars.records, ?_⟩
  have records := VariableTable.records_declared h.registered.keys
  exact congrArg VariableTable.mk records.symm

/-- A declaration only writes names that it has declared. -/
theorem Recorded.lookup?_of_declares (h : Recorded registry lines) (member : line ∈ lines)
    (declares : line.kind = .declaration ∨ line.kind = .finalDeclaration)
    (written : name ∈ line.written) : registry.symbols.vars.lookup? name line.scope ≠ none := by
  have formed := h.wellFormed line member
  have notHeader : line.kind ≠ .methodHeader := by
    rcases declares with kind | kind <;> simp [kind]
  obtain ⟨v, new, rfl, scope⟩ :=
    Line.newVariable_of_name formed (Line.written_subset formed declares written)
  have found := VariableTable.lookup?_own (h.find?_newVariable member new)
  rw [scope, Line.home_of_other notHeader] at found
  rw [found]
  nofun

theorem Recorded.assignment_of_stopsAt (h : Recorded registry lines)
    (stops : registry.symbols.vars.StopsAt lines place line name) : line.kind = .assignment := by
  have member := List.mem_of_getElem? stops.pair.stored
  have known (declares : line.kind = .declaration ∨ line.kind = .finalDeclaration) : False :=
    h.lookup?_of_declares member declares stops.pair.written stops.hidden
  have assigns := stops.pair.assigns
  cases kind : line.kind with
  | assignment => rfl
  | declaration => exact (known (.inl kind)).elim
  | finalDeclaration => exact (known (.inr kind)).elim
  | _ =>
      rw [kind] at assigns
      cases assigns

end Recorded

theorem Symbols.check_fst {symbols : Symbols} {lines : List Line} :
    (symbols.check lines).1 = ⟨(symbols.vars.assignLines lines).1, symbols.methods⟩ := by
  rw [check]
  cases symbols.vars.assignLines lines with
  | mk vars outcome => cases outcome <;> rfl

/-- The first value of a variable wins. Whatever table declarations have led to, and whatever the
lines are, the pass fails exactly if some name before an equals sign stands for nothing, with the
fault of the first such pair. All records stay in their places, with all that is known of them but
for their first values: those that have one keep it, and the others get the number and the scope of
the first line that writes them before the pass stops, or none. After lines that were fed, only an
assignment can stop it. -/
theorem first_value_wins (calls : List Variable) (lines : List Line) :
    let table := VariableTable.declared calls
    let passed := table.assignLines lines
    ((∃ fault, passed.2 = .error fault) ↔
        ∃ place line name, PairAt lines place line name ∧ table.lookup? name line.scope = none) ∧
      (∀ fault, passed.2 = .error fault ↔
        ∃ place line name, table.StopsAt lines place line name ∧
          fault = ⟨line.number, .unbound name line.scope⟩) ∧
      List.Forall₂ (table.Becomes lines) table.records passed.1.records ∧
      (∀ name scope, (passed.1.lookup? name scope).map Variable.key =
        (table.lookup? name scope).map Variable.key) ∧
      (∀ methods, (Symbols.check ⟨table, methods⟩ lines).1 = ⟨passed.1, methods⟩) ∧
      ∀ texts verifier, Verifier.feedAll {} texts = .ok verifier →
        (∃ calls, verifier.registry.symbols.vars = .declared calls) ∧
        ∀ place line name,
          verifier.registry.symbols.vars.StopsAt verifier.lines.toList place line name →
            line.kind = .assignment := by
  intro table passed
  have keys : (table.records.map Variable.key).Nodup := VariableTable.nodup_declared
  refine ⟨VariableTable.assignLines_fails_iff, fun fault => VariableTable.assignLines_stops_iff,
    VariableTable.assignLines_becomes keys, fun name scope => ?_, fun methods => Symbols.check_fst,
    fun texts verifier fed => ?_⟩
  · have marked : passed.1 = table.given ((lines.flatMap Line.writes).takeWhile table.sees) :=
      VariableTable.assignLines_fst
    rw [marked, VariableTable.lookup?_given, Option.map_map]
    rfl
  · have recorded := Verifier.recorded_of_feedAll fed
    exact ⟨recorded.exists_declared, fun place line name => recorded.assignment_of_stopsAt⟩

end SJava
