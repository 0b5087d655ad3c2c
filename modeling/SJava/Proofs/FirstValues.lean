import SJava.Rules
import Mathlib.Data.List.TakeWhile

/-!
# First values

Before the lines are checked, every name that a line writes gives a value to the variable that it
stands for, and the first value counts. All of it is one map over the table (`given`): it keeps the
names and scopes of the variables, hence what names stand for, and gives a variable that has no
value yet the place of the first write that hits it (`assignLines_fst`). It stops at the first
write whose name stands for nothing (`assignLines_ok_iff`).
-/

namespace SJava

/-- A name that gets a value, and where. -/
abbrev Write := String × Initialization

def Line.writes (line : Line) : List Write :=
  line.written.map fun name => (name, ⟨line.number, line.scope⟩)

namespace VariableTable

/-! ## Maps that keep names and scopes -/

def map (table : VariableTable) (f : Variable → Variable) : VariableTable := ⟨table.records.map f⟩

variable {table : VariableTable} {f : Variable → Variable} {name : String} {scope : Scope}

theorem find?_map (keeps : ∀ v, (f v).name = v.name ∧ (f v).scope = v.scope) :
    (table.map f).find? name scope = (table.find? name scope).map f := by
  obtain ⟨records⟩ := table
  have same : (fun v : Variable => v.name == name && v.scope == scope) ∘ f =
      fun v => v.name == name && v.scope == scope := by
    funext v
    simp [keeps v]
  rw [map, find?, find?, List.find?_map, same]

theorem lookup?_map (keeps : ∀ v, (f v).name = v.name ∧ (f v).scope = v.scope) :
    (table.map f).lookup? name scope = (table.lookup? name scope).map f := by
  rw [lookup?, lookup?]
  induction scope.enclosing with
  | nil => rfl
  | cons inner outer ih =>
      rw [List.findSome?_cons, List.findSome?_cons, find?_map keeps]
      cases table.find? name inner with
      | none => exact ih
      | some => rfl

/-! ## Writes -/

def sees (table : VariableTable) (write : Write) : Bool :=
  (table.lookup? write.1 write.2.scope).isSome

/-- Whether a write gives a value to a variable. -/
def hits (table : VariableTable) (v : Variable) (write : Write) : Bool :=
  (table.lookup? write.1 write.2.scope).any fun target =>
    v.name == target.name && v.scope == target.scope

theorem hits_iff {table : VariableTable} {v : Variable} {write : Write} :
    table.hits v write = true ↔ ∃ target, table.lookup? write.1 write.2.scope = some target ∧
      v.name = target.name ∧ v.scope = target.scope := by
  rw [hits]
  cases table.lookup? write.1 write.2.scope <;> simp

/-- The place of the first of some writes that gives a value to a variable. -/
def firstValue? (table : VariableTable) (writes : List Write) (v : Variable) :
    Option Initialization :=
  (writes.find? (table.hits v)).map Prod.snd

def valued (table : VariableTable) (writes : List Write) (v : Variable) : Variable :=
  { v with initialization? := v.initialization?.or (table.firstValue? writes v) }

def given (table : VariableTable) (writes : List Write) : VariableTable :=
  table.map (table.valued writes)

variable {writes more : List Write} {write : Write} {v : Variable}

theorem lookup?_given : (table.given writes).lookup? name scope =
    (table.lookup? name scope).map (table.valued writes) :=
  lookup?_map fun _ => ⟨rfl, rfl⟩

@[simp] theorem sees_given : (table.given writes).sees = table.sees := by
  funext write
  rw [sees, sees, lookup?_given, Option.isSome_map]

@[simp] theorem hits_given : (table.given writes).hits v = table.hits v := by
  funext write
  rw [hits, hits, lookup?_given, Option.any_map]
  rfl

theorem firstValue?_append :
    table.firstValue? (writes ++ more) v =
      (table.firstValue? writes v).or (table.firstValue? more v) := by
  rw [firstValue?, firstValue?, firstValue?, List.find?_append]
  cases writes.find? (table.hits v) <;> rfl

@[simp] theorem given_nil : table.given [] = table := by
  have same : table.valued [] = id := by
    funext v
    simp [valued, firstValue?]
  rw [given, same, map, List.map_id]

theorem given_given : (table.given writes).given more = table.given (writes ++ more) := by
  have twice : (table.given writes).valued more ∘ table.valued writes =
      table.valued (writes ++ more) := by
    funext v
    have later : (table.given writes).firstValue? more (table.valued writes v) =
        table.firstValue? more v := by
      rw [firstValue?, hits_given, firstValue?]
      rfl
    rw [Function.comp_apply, valued, later]
    simp only [valued, firstValue?_append, Option.or_assoc]
  have records : (table.given writes).records = table.records.map (table.valued writes) := rfl
  rw [given, map, records, List.map_map, twice, given, map]

/-! ## The pass over a program -/

theorem assign_of_sees {name : String} {place : Initialization}
    (seen : table.sees (name, place) = true) :
    table.assign name place = .ok (table.given [(name, place)]) := by
  rw [sees, Option.isSome_iff_exists] at seen
  obtain ⟨target, visible⟩ := seen
  have update : (fun v : Variable =>
      if v.name == target.name && v.scope == target.scope then v.assigned place else v) =
        table.valued [(name, place)] := by
    funext v
    by_cases hit : (v.name == target.name && v.scope == target.scope) = true
    · have first : v.initialization?.or (some place) = some (v.initialization?.getD place) := by
        cases v.initialization? <;> rfl
      simp only [valued, firstValue?, hits, visible, Option.any_some, List.find?_cons, hit,
        Option.map_some, if_true, first, Variable.assigned]
    · simp only [valued, firstValue?, hits, visible, Option.any_some, List.find?_cons, hit,
        List.find?_nil, Option.map_none, Option.or_none]
      rfl
  simp only [assign, resolve, visible, update]
  rfl

theorem assign_of_not_sees {name : String} {place : Initialization}
    (unseen : ¬table.sees (name, place) = true) :
    table.assign name place = .error (.unbound name place.scope) := by
  have hidden : table.lookup? name place.scope = none := by simpa [sees] using unseen
  simp only [assign, resolve, hidden]

section Names

variable {place : Initialization} {names : List String}

theorem assignAll_fst : (table.assignAll place names).1 =
    table.given ((names.map fun name => (name, place)).takeWhile table.sees) := by
  induction names generalizing table with
  | nil => exact given_nil.symm
  | cons name names ih =>
      rw [assignAll, List.map_cons]
      by_cases seen : table.sees (name, place) = true
      · rw [assign_of_sees seen, List.takeWhile_cons_of_pos seen]
        show ((table.given [(name, place)]).assignAll place names).1 = _
        rw [ih, sees_given, given_given, List.singleton_append]
      · rw [assign_of_not_sees seen, List.takeWhile_cons_of_neg seen, given_nil]

theorem assignAll_ok_iff : (table.assignAll place names).2 = .ok () ↔
    ∀ write ∈ names.map fun name => (name, place), table.sees write = true := by
  induction names generalizing table with
  | nil => simp [assignAll]
  | cons name names ih =>
      rw [assignAll, List.map_cons, List.forall_mem_cons]
      by_cases seen : table.sees (name, place) = true
      · rw [assign_of_sees seen]
        show ((table.given [(name, place)]).assignAll place names).2 = .ok () ↔ _
        rw [ih, sees_given, and_iff_right seen]
      · rw [assign_of_not_sees seen]
        exact iff_of_false nofun fun all => seen all.1

end Names

variable {lines : List Line}

theorem takeWhile_append_of_not_all {α : Type} {test : α → Bool} {front back : List α}
    (h : ¬∀ a ∈ front, test a = true) : (front ++ back).takeWhile test = front.takeWhile test := by
  rw [List.takeWhile_append, if_neg]
  intro whole
  exact h (List.takeWhile_eq_self_iff.mp ((List.takeWhile_prefix test).eq_of_length whole))

theorem assignLines_fst : (table.assignLines lines).1 =
    table.given ((lines.flatMap Line.writes).takeWhile table.sees) := by
  induction lines generalizing table with
  | nil => exact given_nil.symm
  | cons line lines ih =>
      have after : (table.assignAll ⟨line.number, line.scope⟩ line.written).1 =
          table.given (line.writes.takeWhile table.sees) := assignAll_fst
      have passed : (table.assignAll ⟨line.number, line.scope⟩ line.written).2 = .ok () ↔
          ∀ write ∈ line.writes, table.sees write = true := assignAll_ok_iff
      rw [assignLines, List.flatMap_cons]
      cases outcome : table.assignAll ⟨line.number, line.scope⟩ line.written with
      | mk next result =>
          rw [outcome] at after passed
          cases result with
          | error cause =>
              have unseen : ¬∀ write ∈ line.writes, table.sees write = true :=
                mt passed.mpr nofun
              rw [takeWhile_append_of_not_all unseen]
              exact after
          | ok =>
              have seen := passed.mp rfl
              show (next.assignLines lines).1 = _
              change next = _ at after
              rw [List.takeWhile_append_of_pos seen, ← given_given, ih, after,
                List.takeWhile_eq_self_iff.mpr seen, sees_given]

theorem assignLines_ok_iff : (table.assignLines lines).2 = .ok () ↔
    ∀ write ∈ lines.flatMap Line.writes, table.sees write = true := by
  induction lines generalizing table with
  | nil => simp [assignLines]
  | cons line lines ih =>
      have after : (table.assignAll ⟨line.number, line.scope⟩ line.written).1 =
          table.given (line.writes.takeWhile table.sees) := assignAll_fst
      have passed : (table.assignAll ⟨line.number, line.scope⟩ line.written).2 = .ok () ↔
          ∀ write ∈ line.writes, table.sees write = true := assignAll_ok_iff
      rw [assignLines, List.flatMap_cons, List.forall_mem_append, ← passed]
      cases outcome : table.assignAll ⟨line.number, line.scope⟩ line.written with
      | mk next result =>
          rw [outcome] at after passed
          cases result with
          | error cause => exact iff_of_false nofun fun all => nomatch all.1
          | ok =>
              show (next.assignLines lines).2 = .ok () ↔ _
              change next = _ at after
              rw [ih, after, sees_given]
              exact (and_iff_right rfl).symm

theorem assignLines_eq {next : VariableTable} (done : table.assignLines lines = (next, .ok ())) :
    next = table.given (lines.flatMap Line.writes) := by
  have seen : ∀ write ∈ lines.flatMap Line.writes, table.sees write = true :=
    assignLines_ok_iff.mp (congrArg Prod.snd done)
  rw [← List.takeWhile_eq_self_iff.mpr seen, ← assignLines_fst, done]

/-- The first value of a variable comes from the first line that writes it. -/
theorem firstValue?_some {place : Initialization}
    (found : table.firstValue? (lines.flatMap Line.writes) v = some place) :
    ∃ (i : Nat) (writer : Line), lines[i]? = some writer ∧
      place = ⟨writer.number, writer.scope⟩ ∧
      (∃ write ∈ writer.writes, table.hits v write = true) ∧
      ∀ j < i, ∀ earlier, lines[j]? = some earlier →
        ∀ write ∈ earlier.writes, table.hits v write = false := by
  obtain ⟨write, first, rfl⟩ := Option.map_eq_some_iff.mp found
  rw [List.find?_flatMap, List.findSome?_eq_some_iff] at first
  obtain ⟨before, writer, after, rfl, here, nothing⟩ := first
  have member := List.mem_of_find?_eq_some here
  have hit := List.find?_some here
  refine ⟨before.length, writer, by simp, ?_, ⟨write, member, hit⟩, ?_⟩
  · obtain ⟨name, -, rfl⟩ := List.mem_map.mp member
    rfl
  · intro j order earlier stored write written
    rw [List.getElem?_append_left order] at stored
    have missed := nothing earlier (List.mem_of_getElem? stored)
    simpa using List.find?_eq_none.mp missed write written

end VariableTable

end SJava
