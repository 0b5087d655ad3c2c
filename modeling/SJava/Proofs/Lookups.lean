import SJava.Proofs.FirstValues
import SJava.Proofs.Tables
import Mathlib.Data.List.Nodup

/-!
# Lookups

A declaration is refused exactly if its name and scope are taken, so however a table was filled, the
two tell its records apart (`VariableTable.nodup_declareEach`). The walk outwards from a scope stops
at the first record of a name, which is the one with the longest scope around
(`innermost_of_lookup?`). As scopes of one depth around a place are equal, there is one such record
at most (`lookup?_eq_some_iff`). So the order of the records plays no part (`lookup?_congr`), and it
can be told what a further declaration hides (`lookup?_ne_iff`).
-/

namespace SJava

namespace Scope

variable {outer other scope : Scope}

theorem encloses_iff : outer.encloses scope = true ↔ outer.segments <+: scope.segments := by
  rw [encloses, List.isSuffixOf_iff_suffix, segments, segments, List.cons_prefix_cons,
    and_iff_right rfl, List.reverse_prefix]

theorem segments_inj (same : outer.segments = scope.segments) : outer = scope := by
  have paths := (List.cons.inj same).2
  exact congrArg Scope.mk (List.reverse_inj.mp paths)

theorem depth_le_of_prefix (around : outer.segments <+: scope.segments) :
    outer.depth ≤ scope.depth := by
  have length := around.length_le
  simpa [segments, depth] using length

/-- No two scopes around a place have the same depth. -/
theorem eq_of_depth (first : outer.segments <+: scope.segments)
    (second : other.segments <+: scope.segments) (same : outer.depth = other.depth) :
    outer = other := by
  have length : outer.segments.length = other.segments.length := by
    simpa [segments, depth] using same
  have inside := List.prefix_of_prefix_length_le first second (Nat.le_of_eq length)
  exact segments_inj (inside.eq_of_length length)

end Scope

namespace VariableTable

/-! ## Sequences of declarations -/

/-- Declares variables one after the other, with the outcome of each. A declaration that is refused
leaves the table as it is. -/
def declareEach (table : VariableTable) :
    List Variable → VariableTable × List (Except Cause Unit)
  | [] => (table, [])
  | v :: vs =>
      let (table, outcome) := table.declareAll [v]
      let (last, outcomes) := table.declareEach vs
      (last, outcome :: outcomes)

/-- The table that declarations lead to from the empty one. -/
def declared (calls : List Variable) : VariableTable := (declareEach {} calls).1

variable {table next : VariableTable} {name : String} {scope : Scope} {v w : Variable}
  {calls order : List Variable}

theorem declareAll_of_taken (taken : v.key ∈ table.records.map Variable.key) :
    table.declareAll [v] = (table, .error (.redeclared v.name v.scope)) := by
  have known : table.find? v.name v.scope ≠ none := fun free => find?_eq_none_iff.mp free taken
  obtain ⟨other, found⟩ := Option.ne_none_iff_exists'.mp known
  rw [declareAll, declare, found]

theorem declareAll_of_free (free : v.key ∉ table.records.map Variable.key) :
    table.declareAll [v] = (⟨table.records ++ [v]⟩, .ok ()) := by
  have unknown : table.find? v.name v.scope = none := find?_eq_none_iff.mpr free
  rw [declareAll, declare, unknown]
  rfl

theorem declareAll_fails_iff :
    (∃ cause, (table.declareAll [v]).2 = .error cause) ↔
      v.key ∈ table.records.map Variable.key := by
  by_cases taken : v.key ∈ table.records.map Variable.key
  · rw [declareAll_of_taken taken]
    exact iff_of_true ⟨_, rfl⟩ taken
  · rw [declareAll_of_free taken]
    refine iff_of_false (fun failed => ?_) taken
    obtain ⟨cause, failed⟩ := failed
    cases failed

theorem nodup_declareEach (keys : (table.records.map Variable.key).Nodup) :
    ((table.declareEach calls).1.records.map Variable.key).Nodup := by
  induction calls generalizing table with
  | nil => exact keys
  | cons v vs ih =>
      show (((table.declareAll [v]).1.declareEach vs).1.records.map Variable.key).Nodup
      apply ih
      by_cases taken : v.key ∈ table.records.map Variable.key
      · rwa [declareAll_of_taken taken]
      · rw [declareAll_of_free taken, List.map_append, List.nodup_append']
        exact ⟨keys, List.nodup_singleton _, List.disjoint_singleton.mpr taken⟩

theorem nodup_declared : ((declared calls).records.map Variable.key).Nodup :=
  nodup_declareEach .nil

theorem size_declareEach : (table.declareEach calls).1.size =
    table.size + (table.declareEach calls).2.countP Except.toBool := by
  induction calls generalizing table with
  | nil => rfl
  | cons v vs ih =>
      show ((table.declareAll [v]).1.declareEach vs).1.size = table.size +
        ((table.declareAll [v]).2 ::
          ((table.declareAll [v]).1.declareEach vs).2).countP Except.toBool
      rw [ih, List.countP_cons]
      by_cases taken : v.key ∈ table.records.map Variable.key
      · simp [declareAll_of_taken taken, Except.toBool]
      · simp [declareAll_of_free taken, Except.toBool, size]
        omega

theorem declareEach_of_nodup (keys : ((table.records ++ calls).map Variable.key).Nodup) :
    (table.declareEach calls).1.records = table.records ++ calls := by
  induction calls generalizing table with
  | nil => exact (List.append_nil _).symm
  | cons v vs ih =>
      have free : v.key ∉ table.records.map Variable.key := by
        rw [List.map_append, List.nodup_append'] at keys
        exact fun taken => keys.2.2 taken List.mem_cons_self
      show ((table.declareAll [v]).1.declareEach vs).1.records = _
      rw [declareAll_of_free free, ih (by simpa using keys), List.append_assoc,
        List.singleton_append]

/-- Variables with keys of their own can be declared in any order. -/
theorem records_declared (keys : (order.map Variable.key).Nodup) :
    (declared order).records = order :=
  declareEach_of_nodup keys

/-! ## What a name stands for -/

/-- A record that a name can stand for in a scope, since its own scope is that one or around it. -/
structure Visible (table : VariableTable) (name : String) (scope : Scope) (v : Variable) :
    Prop where
  stored : v ∈ table.records
  named : v.name = name
  around : v.scope.segments <+: scope.segments

def Innermost (table : VariableTable) (name : String) (scope : Scope) (v : Variable) : Prop :=
  table.Visible name scope v ∧ ∀ w, table.Visible name scope w → w.scope.depth ≤ v.scope.depth

theorem Visible.find?_ne_none (visible : table.Visible name scope v) :
    table.find? name v.scope ≠ none := by
  intro free
  apply find?_eq_none_iff.mp free
  exact List.mem_map.mpr ⟨v, visible.stored, Prod.ext visible.named rfl⟩

theorem visible_of_lookup? (found : table.lookup? name scope = some v) :
    table.Visible name scope v := by
  obtain ⟨-, named, encloses⟩ := lookup?_some found
  exact ⟨lookup?_mem found, named, Scope.encloses_iff.mp encloses⟩

theorem lookup?_eq_none_iff :
    table.lookup? name scope = none ↔ ∀ v, ¬table.Visible name scope v := by
  rw [lookup?, List.findSome?_eq_none_iff]
  constructor
  · intro nothing v visible
    refine visible.find?_ne_none (nothing v.scope ?_)
    exact Scope.mem_enclosing.mpr (Scope.encloses_iff.mpr visible.around)
  · intro hidden outer member
    refine find?_eq_none_iff.mpr fun known => ?_
    obtain ⟨v, stored, key⟩ := List.mem_map.mp known
    obtain ⟨named, rfl⟩ := Prod.mk.inj key
    exact hidden v ⟨stored, named, Scope.encloses_iff.mp (Scope.mem_enclosing.mp member)⟩

theorem lookup?_child {segment : Segment} : table.lookup? name (scope.child segment) =
    (table.find? name (scope.child segment)).or (table.lookup? name scope) := by
  have outwards : (scope.child segment).enclosing = scope.child segment :: scope.enclosing := rfl
  rw [lookup?, outwards, List.findSome?_cons, lookup?]
  cases table.find? name (scope.child segment) <;> rfl

/-- The walk outwards meets the deepest record first. -/
theorem innermost_of_lookup? (found : table.lookup? name scope = some v) :
    table.Innermost name scope v := by
  refine ⟨visible_of_lookup? found, fun w visible => ?_⟩
  obtain ⟨path⟩ := scope
  induction path with
  | nil =>
      have top := Scope.depth_le_of_prefix visible.around
      exact Nat.le_trans top (Nat.zero_le _)
  | cons segment path ih =>
      have walk : table.lookup? name ⟨segment :: path⟩ =
          (table.find? name ⟨segment :: path⟩).or (table.lookup? name ⟨path⟩) := lookup?_child
      rw [walk] at found
      cases here : table.find? name ⟨segment :: path⟩ with
      | some other =>
          rw [here] at found
          cases found
          rw [(find?_some here).2.2]
          exact Scope.depth_le_of_prefix visible.around
      | none =>
          rw [here, Option.none_or] at found
          have encloses := Scope.encloses_iff.mpr visible.around
          rw [Scope.encloses, List.isSuffixOf_iff_suffix, List.suffix_cons_iff] at encloses
          rcases encloses with own | outer
          · have own : w.scope = ⟨segment :: path⟩ := congrArg Scope.mk own
            exact absurd (own ▸ here) visible.find?_ne_none
          · refine ih found ⟨visible.stored, visible.named, Scope.encloses_iff.mp ?_⟩
            rwa [Scope.encloses, List.isSuffixOf_iff_suffix]

section Keys

variable (keys : (table.records.map Variable.key).Nodup)

include keys

theorem Innermost.unique (first : table.Innermost name scope v)
    (second : table.Innermost name scope w) : v = w := by
  have depth := Nat.le_antisymm (second.2 v first.1) (first.2 w second.1)
  have scopes := Scope.eq_of_depth first.1.around second.1.around depth
  exact List.inj_on_of_nodup_map keys first.1.stored second.1.stored
    (Prod.ext (first.1.named.trans second.1.named.symm) scopes)

theorem lookup?_eq_some_iff :
    table.lookup? name scope = some v ↔ table.Innermost name scope v := by
  refine ⟨innermost_of_lookup?, fun innermost => ?_⟩
  cases found : table.lookup? name scope with
  | none => exact absurd innermost.1 (lookup?_eq_none_iff.mp found v)
  | some other => rw [(innermost_of_lookup? found).unique keys innermost]

/-- What names stand for depends on which records there are, and not on their order. -/
theorem lookup?_congr {other : VariableTable} (keysToo : (other.records.map Variable.key).Nodup)
    (same : ∀ v, v ∈ other.records ↔ v ∈ table.records) :
    other.lookup? name scope = table.lookup? name scope := by
  have visible (w : Variable) : other.Visible name scope w ↔ table.Visible name scope w :=
    ⟨fun seen => ⟨(same w).mp seen.stored, seen.named, seen.around⟩,
      fun seen => ⟨(same w).mpr seen.stored, seen.named, seen.around⟩⟩
  apply Option.ext
  intro v
  rw [lookup?_eq_some_iff keysToo, lookup?_eq_some_iff keys]
  simp only [Innermost, visible]

/-- Giving a value to a name changes the record that the name stands for, and no other. -/
theorem assign_of_lookup? {place : Initialization}
    (found : table.lookup? name place.scope = some v) :
    ∃ before after, table.records = before ++ v :: after ∧
      table.assign name place = .ok ⟨before ++ v.assigned place :: after⟩ := by
  obtain ⟨before, after, split⟩ := List.append_of_mem (lookup?_mem found)
  refine ⟨before, after, split, ?_⟩
  rw [split, List.map_append, List.map_cons, List.nodup_append', List.nodup_cons] at keys
  obtain ⟨-, ⟨notAfter, -⟩, apart⟩ := keys
  have notBefore : v.key ∉ before.map Variable.key := fun member => apart member List.mem_cons_self
  have kept {records : List Variable} (others : v.key ∉ records.map Variable.key) :
      (records.map fun w =>
        if w.name == v.name && w.scope == v.scope then w.assigned place else w) = records := by
    refine (List.map_congr_left fun w member => if_neg fun same => ?_).trans (List.map_id _)
    rw [Bool.and_eq_true, beq_iff_eq, beq_iff_eq] at same
    exact others (List.mem_map.mpr ⟨w, member, Prod.ext same.1 same.2⟩)
  simp only [assign, resolve, found, split, List.map_append, List.map_cons, kept notBefore,
    kept notAfter, beq_self_eq_true, Bool.and_self, if_true]

end Keys

/-! ## Further declarations -/

/-- A further record hides whatever a name stands for in a scope: it is visible there, and nothing
deeper is. -/
def Shadows (table : VariableTable) (v : Variable) (name : String) (scope : Scope) : Prop :=
  v.name = name ∧ v.scope.segments <+: scope.segments ∧
    ∀ w, table.Visible name scope w → w.scope.depth ≤ v.scope.depth

theorem nodup_of_declare (keys : (table.records.map Variable.key).Nodup)
    (declared : table.declare v = .ok next) : (next.records.map Variable.key).Nodup := by
  obtain ⟨free, records⟩ := declare_ok declared
  rw [records, List.map_append, List.nodup_append']
  exact ⟨keys, List.nodup_singleton _, List.disjoint_singleton.mpr (find?_eq_none_iff.mp free)⟩

theorem visible_of_declare (declared : table.declare v = .ok next) :
    next.Visible name scope w ↔
      table.Visible name scope w ∨ w = v ∧ v.name = name ∧ v.scope.segments <+: scope.segments := by
  have records := (declare_ok declared).2
  constructor
  · intro visible
    obtain ⟨stored, named, around⟩ := visible
    rw [records, List.mem_append, List.mem_singleton] at stored
    rcases stored with stored | rfl
    · exact .inl ⟨stored, named, around⟩
    · exact .inr ⟨rfl, named, around⟩
  · intro visible
    rcases visible with ⟨stored, named, around⟩ | ⟨rfl, named, around⟩
    · exact ⟨by simp [records, stored], named, around⟩
    · exact ⟨by simp [records], named, around⟩

section Declare

variable (keys : (table.records.map Variable.key).Nodup) (declared : table.declare v = .ok next)

include keys declared

theorem lookup?_of_shadows (shadows : table.Shadows v name scope) :
    next.lookup? name scope = some v := by
  obtain ⟨named, around, deepest⟩ := shadows
  refine (lookup?_eq_some_iff (nodup_of_declare keys declared)).mpr ⟨?_, fun w visible => ?_⟩
  · exact (visible_of_declare declared).mpr (.inr ⟨rfl, named, around⟩)
  · rcases (visible_of_declare declared).mp visible with earlier | ⟨rfl, -⟩
    · exact deepest w earlier
    · exact Nat.le_refl _

theorem lookup?_of_not_shadows (clear : ¬table.Shadows v name scope) :
    next.lookup? name scope = table.lookup? name scope := by
  cases found : table.lookup? name scope with
  | none =>
      have hidden := lookup?_eq_none_iff.mp found
      refine lookup?_eq_none_iff.mpr fun w visible => ?_
      rcases (visible_of_declare declared).mp visible with earlier | ⟨rfl, named, around⟩
      · exact hidden w earlier
      · exact clear ⟨named, around, fun w earlier => absurd earlier (hidden w)⟩
  | some u =>
      obtain ⟨visible, deepest⟩ := innermost_of_lookup? found
      refine (lookup?_eq_some_iff (nodup_of_declare keys declared)).mpr ⟨?_, fun w seen => ?_⟩
      · exact (visible_of_declare declared).mpr (.inl visible)
      · rcases (visible_of_declare declared).mp seen with earlier | ⟨rfl, named, around⟩
        · exact deepest w earlier
        · refine Nat.le_of_not_lt fun deeper => clear ⟨named, around, fun w earlier => ?_⟩
          exact Nat.le_trans (deepest w earlier) (Nat.le_of_lt deeper)

theorem lookup?_ne_iff : next.lookup? name scope ≠ table.lookup? name scope ↔
    table.Shadows v name scope := by
  constructor
  · intro changed
    by_contra clear
    exact changed (lookup?_of_not_shadows keys declared clear)
  · intro shadows same
    rw [lookup?_of_shadows keys declared shadows] at same
    have known := List.mem_map_of_mem (f := Variable.key) (lookup?_mem same.symm)
    exact find?_eq_none_iff.mp (declare_ok declared).1 known

end Declare

/-- A table that declarations were made in, some of which may have been refused, is a map from names
and scopes to records. A further declaration is refused exactly if its name and scope are taken, and
changes nothing then. A name stands for the record that is declared by it in the longest scope
around its use, which is also the one that gets a value through the name. The order of the
declarations does not matter. A further record changes what names stand for only where it hides what
was visible before. -/
theorem declared_lookups (calls : List Variable) :
    let table := declared calls
    (∀ v, ((∃ cause, (table.declareAll [v]).2 = .error cause) ↔
          ∃ w ∈ table.records, w.name = v.name ∧ w.scope = v.scope) ∧
        ∀ cause, (table.declareAll [v]).2 = .error cause →
          cause.kind = .duplicateDeclaration ∧ (table.declareAll [v]).1 = table) ∧
      table.size = (declareEach {} calls).2.countP Except.toBool ∧
      (∀ name scope,
        (∀ v, table.lookup? name scope = some v ↔ table.Innermost name scope v) ∧
        (table.lookup? name scope = none ↔ ∀ v, ¬table.Visible name scope v)) ∧
      (∀ name place,
        (∀ v, table.lookup? name place.scope = some v →
          ∃ before after, table.records = before ++ v :: after ∧
            table.assign name place = .ok ⟨before ++ v.assigned place :: after⟩) ∧
        (table.lookup? name place.scope = none →
          table.assign name place = .error (.unbound name place.scope))) ∧
      (∀ others, (∀ v, v ∈ (declared others).records ↔ v ∈ table.records) →
        ∀ name scope, (declared others).lookup? name scope = table.lookup? name scope) ∧
      (∀ order, order.Perm table.records → (declared order).records = order) ∧
      ∀ v next, table.declare v = .ok next → ∀ name scope,
        (next.lookup? name scope ≠ table.lookup? name scope ↔ table.Shadows v name scope) ∧
        (table.Shadows v name scope → next.lookup? name scope = some v) := by
  intro table
  have keys : (table.records.map Variable.key).Nodup := nodup_declared
  refine ⟨fun v => ⟨?_, fun cause failed => ?_⟩, ?_, fun name scope => ⟨fun v => ?_, ?_⟩,
    fun name place => ⟨fun v found => ?_, fun hidden => ?_⟩, fun others same name scope => ?_,
    fun order perm => ?_, fun v next declared name scope => ⟨?_, ?_⟩⟩
  · rw [declareAll_fails_iff, List.mem_map]
    simp only [Variable.key, Prod.mk.injEq]
  · have taken := declareAll_fails_iff.mp ⟨cause, failed⟩
    rw [declareAll_of_taken taken] at failed ⊢
    cases failed
    exact ⟨rfl, rfl⟩
  · exact size_declareEach.trans (Nat.zero_add _)
  · exact lookup?_eq_some_iff keys
  · exact lookup?_eq_none_iff
  · exact assign_of_lookup? keys found
  · exact assign_of_not_sees (by simp [sees, hidden])
  · exact lookup?_congr keys nodup_declared same
  · exact records_declared ((perm.map Variable.key).nodup_iff.mpr keys)
  · exact lookup?_ne_iff keys declared
  · exact lookup?_of_shadows keys declared

end VariableTable

end SJava
