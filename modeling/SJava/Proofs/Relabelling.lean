import SJava.Proofs.FirstValues
import SJava.Proofs.Tables
import Mathlib.Data.List.Nodup

/-!
# Relabelling tables

Tables compare names and scopes for equality, and walk from a scope to those around it. So what they
find does not depend on the names and scopes themselves: it moves along with a change of both that
keeps different ones apart and scopes inside each other. Nor does the order of the records matter,
as long as no two of them are known by the same (`findFirst_of_perm`).
-/

namespace SJava

theorem Scope.outwards_map (f : Segment → Segment) (path : List Segment) :
    outwards (path.map f) = (outwards path).map fun scope => ⟨scope.path.map f⟩ := by
  induction path with
  | nil => rfl
  | cons segment path ih => rw [List.map_cons, outwards, outwards, List.map_cons, ih, List.map_cons]

structure Relabelling where
  name : String → String
  scope : Scope → Scope
  place : Initialization → Initialization
  name_injective : Function.Injective name
  scope_injective : Function.Injective scope
  enclosing (inner : Scope) : (scope inner).enclosing = inner.enclosing.map scope

namespace Relabelling

variable {m : Relabelling} {table : VariableTable} {name : String} {scope : Scope}
  {v target : Variable}

def record (m : Relabelling) (v : Variable) : Variable :=
  { v with
    name := m.name v.name
    scope := m.scope v.scope
    initialization? := v.initialization?.map m.place }

theorem beq_name {other : String} : (m.name name == m.name other) = (name == other) := by
  rw [Bool.eq_iff_iff, beq_iff_eq, beq_iff_eq, m.name_injective.eq_iff]

theorem beq_scope {other : Scope} : (m.scope scope == m.scope other) = (scope == other) := by
  rw [Bool.eq_iff_iff, beq_iff_eq, beq_iff_eq, m.scope_injective.eq_iff]

theorem find?_relabelled :
    (table.map m.record).find? (m.name name) (m.scope scope) =
      (table.find? name scope).map m.record := by
  obtain ⟨records⟩ := table
  have same : (fun v : Variable => v.name == m.name name && v.scope == m.scope scope) ∘ m.record =
      fun v => v.name == name && v.scope == scope := by
    funext v
    exact congrArg₂ and beq_name beq_scope
  rw [VariableTable.map, VariableTable.find?, VariableTable.find?, List.find?_map, same]

theorem lookup?_relabelled :
    (table.map m.record).lookup? (m.name name) (m.scope scope) =
      (table.lookup? name scope).map m.record := by
  rw [VariableTable.lookup?, VariableTable.lookup?, m.enclosing]
  induction scope.enclosing with
  | nil => rfl
  | cons inner outer ih =>
      rw [List.map_cons, List.findSome?_cons, List.findSome?_cons, find?_relabelled]
      cases table.find? name inner with
      | none => exact ih
      | some => rfl

end Relabelling

/-! ## Records in another order -/

theorem findFirst_of_perm {α : Type} {test : α → Bool} {xs ys : List α} (perm : xs.Perm ys)
    (unique : ∀ x ∈ ys, ∀ y ∈ ys, test x = true → test y = true → x = y) :
    xs.find? test = ys.find? test := by
  cases found : ys.find? test with
  | none =>
      rw [List.find?_eq_none] at found ⊢
      exact fun x member => found x (perm.mem_iff.mp member)
  | some y =>
      have passes : (xs.find? test).isSome = true := by
        rw [List.find?_isSome]
        exact ⟨y, perm.mem_iff.mpr (List.mem_of_find?_eq_some found), List.find?_some found⟩
      obtain ⟨x, foundFirst⟩ := Option.isSome_iff_exists.mp passes
      rw [foundFirst, unique x (perm.mem_iff.mp (List.mem_of_find?_eq_some foundFirst)) y
        (List.mem_of_find?_eq_some found) (List.find?_some foundFirst) (List.find?_some found)]

theorem VariableTable.lookup?_of_perm {table other : VariableTable} {name : String} {scope : Scope}
    (perm : table.records.Perm other.records) (keys : (other.records.map Variable.key).Nodup) :
    table.lookup? name scope = other.lookup? name scope := by
  have same : table.find? name = other.find? name := by
    funext scope
    refine findFirst_of_perm perm fun v member w memberToo here there => ?_
    simp only [Bool.and_eq_true, beq_iff_eq] at here there
    refine List.inj_on_of_nodup_map keys member memberToo ?_
    rw [Variable.key, Variable.key, here.1, here.2, there.1, there.2]
  rw [lookup?, lookup?, same]

theorem MethodTable.find?_of_perm {table other : MethodTable} {name : String}
    (perm : table.records.Perm other.records) (names : (other.records.map Method.name).Nodup) :
    table.find? name = other.find? name := by
  refine findFirst_of_perm perm fun m member n memberToo here there => ?_
  rw [beq_iff_eq] at here there
  exact List.inj_on_of_nodup_map names member memberToo (here.trans there.symm)

end SJava
