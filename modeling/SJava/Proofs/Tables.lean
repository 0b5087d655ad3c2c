import SJava.Symbols

/-!
# Laws of the tables

What lookups in the tables of variables and methods find, and what declarations add. A record is
known by its name and scope, so two names that stand for records of one name and scope stand for the
same record (`lookup?_eq_of_key`).
-/

namespace SJava

/-- What a variable is known by. -/
def Variable.key (v : Variable) : String × Scope := (v.name, v.scope)

namespace VariableTable

variable {table next : VariableTable} {name : String} {scope : Scope} {v : Variable}

theorem find?_some (found : table.find? name scope = some v) :
    v ∈ table.records ∧ v.name = name ∧ v.scope = scope := by
  have key := List.find?_some found
  rw [Bool.and_eq_true, beq_iff_eq, beq_iff_eq] at key
  exact ⟨List.mem_of_find?_eq_some found, key⟩

theorem lookup?_some (found : table.lookup? name scope = some v) :
    table.find? v.name v.scope = some v ∧ v.name = name ∧ v.scope.encloses scope = true := by
  obtain ⟨outer, encloses, found⟩ := List.exists_of_findSome?_eq_some found
  obtain ⟨-, rfl, rfl⟩ := find?_some found
  exact ⟨found, rfl, Scope.mem_enclosing.mp encloses⟩

theorem lookup?_mem (found : table.lookup? name scope = some v) : v ∈ table.records :=
  (find?_some (lookup?_some found).1).1

theorem lookup?_eq_of_key {otherName : String} {otherScope : Scope} {other : Variable}
    (found : table.lookup? name scope = some v)
    (otherFound : table.lookup? otherName otherScope = some other)
    (key : v.name = other.name ∧ v.scope = other.scope) : v = other := by
  have first := (lookup?_some found).1
  have second := (lookup?_some otherFound).1
  rw [key.1, key.2, second] at first
  exact (Option.some_inj.mp first).symm

theorem declare_ok (declared : table.declare v = .ok next) :
    table.find? v.name v.scope = none ∧ next.records = table.records ++ [v] := by
  unfold declare at declared
  split at declared
  · cases declared
  · rename_i free
    cases declared
    exact ⟨free, rfl⟩

theorem declareAll_ok {vs : List Variable} (declared : table.declareAll vs = (next, .ok ())) :
    next.records = table.records ++ vs := by
  induction vs generalizing table with
  | nil =>
      cases declared
      exact (List.append_nil _).symm
  | cons v vs ih =>
      rw [declareAll] at declared
      split at declared
      · cases declared
      · rename_i middle outcome
        rw [ih declared, (declare_ok outcome).2, List.append_assoc, List.singleton_append]

theorem find?_eq_none_iff :
    table.find? name scope = none ↔ (name, scope) ∉ table.records.map Variable.key := by
  simp [find?, Variable.key]

theorem declareAll_error {vs : List Variable} {cause : Cause}
    (failed : (table.declareAll vs).2 = .error cause) : cause.kind = .duplicateDeclaration := by
  induction vs generalizing table with
  | nil => cases failed
  | cons v vs ih =>
      rw [declareAll] at failed
      split at failed
      · rename_i refused
        cases failed
        unfold declare at refused
        split at refused <;> cases refused
        rfl
      · exact ih failed

/-- Variables can be declared if their keys are new, to the table and among themselves. -/
theorem declareAll_ok_iff {vs : List Variable} :
    (table.declareAll vs).2 = .ok () ↔
      (vs.map Variable.key).Nodup ∧ ∀ v ∈ vs, v.key ∉ table.records.map Variable.key := by
  induction vs generalizing table with
  | nil => simp [declareAll]
  | cons v vs ih =>
      rw [declareAll, List.map_cons, List.nodup_cons, List.forall_mem_cons]
      cases outcome : table.declare v with
      | error cause =>
          have known : ¬v.key ∉ table.records.map Variable.key := by
            rw [Variable.key, ← find?_eq_none_iff]
            intro free
            rw [declare, free] at outcome
            cases outcome
          exact iff_of_false nofun fun holds => known holds.2.1
      | ok next =>
          obtain ⟨free, records⟩ := declare_ok outcome
          have fresh : v.key ∉ table.records.map Variable.key := find?_eq_none_iff.mp free
          have others : (∀ w ∈ vs, w.key ∉ next.records.map Variable.key) ↔
              v.key ∉ vs.map Variable.key ∧ ∀ w ∈ vs, w.key ∉ table.records.map Variable.key := by
            simp only [records, List.map_append, List.map_singleton, List.mem_append,
              List.mem_singleton, not_or, List.mem_map]
            constructor
            · intro all
              refine ⟨?_, fun w member => (all w member).1⟩
              rintro ⟨w, member, same⟩
              exact (all w member).2 same
            · rintro ⟨apart, all⟩ w member
              exact ⟨all w member, fun same => apart ⟨w, member, same⟩⟩
          show (next.declareAll vs).2 = .ok () ↔ _
          rw [ih, others, and_iff_right fresh, and_assoc, and_left_comm]

end VariableTable

namespace MethodTable

variable {table next : MethodTable} {m : Method} {name : String}

theorem declare_ok (declared : table.declare m = .ok next) :
    table.find? m.name = none ∧ next.records = table.records ++ [m] := by
  unfold declare at declared
  split at declared
  · cases declared
  · rename_i free
    cases declared
    exact ⟨free, rfl⟩

theorem find?_isSome_of_declare (declared : table.declare m = .ok next) :
    (next.find? name).isSome = true ↔ (table.find? name).isSome = true ∨ m.name = name := by
  have records := (declare_ok declared).2
  rw [find?, find?, records, List.find?_append, Option.isSome_or, Bool.or_eq_true,
    List.find?_singleton]
  by_cases same : m.name = name <;> simp [same]

end MethodTable

end SJava
