import SJava.Lines
import Mathlib.Data.List.Basic

/-!
# Cutting texts

A text that was joined from pieces can be cut into them again, provided that none of them holds the
character between them. The lines that a text is split into do not hold the line feed.
-/

namespace SJava

/-! ## Texts without a character -/

section

variable {mark : Char} {pieces : List String} {front back separator : String}

/-- A text in which a character does not stand. -/
def Lacks (mark : Char) (text : String) : Prop := mark ∉ text.toList

instance (mark : Char) (text : String) : Decidable (Lacks mark text) :=
  inferInstanceAs (Decidable (mark ∉ text.toList))

theorem Lacks.append (here : Lacks mark front) (there : Lacks mark back) :
    Lacks mark (front ++ back) := by
  rw [Lacks, String.toList_append, List.mem_append, not_or]
  exact ⟨here, there⟩

theorem lacks_repr (notDigit : mark.isDigit = false) (number : Nat) : Lacks mark number.repr := by
  rw [Lacks, Nat.toList_repr]
  intro member
  rw [Nat.isDigit_of_mem_toDigits (by decide) (by decide) member] at notDigit
  cases notDigit

theorem lacks_intercalate (between : Lacks mark separator)
    (lacking : ∀ piece ∈ pieces, Lacks mark piece) : Lacks mark (separator.intercalate pieces) := by
  induction pieces with
  | nil => exact List.not_mem_nil
  | cons piece rest ih =>
      obtain ⟨here, later⟩ := List.forall_mem_cons.mp lacking
      cases rest with
      | nil => rwa [String.intercalate_singleton]
      | cons next rest =>
          rw [String.intercalate_cons_cons]
          exact (here.append between).append (ih later)

end

/-! ## Pieces -/

/-- The pieces of a text between the places where a character stands. -/
def cut (mark : Char) (text : String) : List String :=
  (text.toList.splitOn mark).map String.ofList

variable {mark : Char} {pieces : List String} {piece text front back : String}

theorem notMem_of_mem_splitOn {chars found : List Char} (member : found ∈ chars.splitOn mark) :
    mark ∉ found := by
  induction chars generalizing found with
  | nil =>
      rw [List.splitOn_nil, List.mem_singleton] at member
      simp [member]
  | cons c chars ih =>
      rw [List.splitOn_cons_eq_if_modifyHead] at member
      split at member
      · rcases List.mem_cons.mp member with rfl | member
        · exact List.not_mem_nil
        · exact ih member
      · rename_i other
        obtain ⟨first, rest, split⟩ := List.exists_cons_of_ne_nil (List.splitOn_ne_nil mark chars)
        rw [split, List.modifyHead_cons] at member
        rw [split] at ih
        rcases List.mem_cons.mp member with rfl | member
        · rw [List.mem_cons, not_or]
          exact ⟨fun same => other (by simp [same]), ih List.mem_cons_self⟩
        · exact ih (List.mem_cons_of_mem _ member)

theorem lacks_of_mem_cut (member : piece ∈ cut mark text) : Lacks mark piece := by
  obtain ⟨chars, found, rfl⟩ := List.mem_map.mp member
  rw [Lacks, String.toList_ofList]
  exact notMem_of_mem_splitOn found

theorem cut_append (shape : text.toList = front.toList ++ mark :: back.toList) :
    cut mark text = cut mark front ++ cut mark back := by
  rw [cut, shape, List.splitOn_append_cons_self, List.map_append, cut, cut]

theorem cut_of_lacks (lacking : Lacks mark text) : cut mark text = [text] := by
  rw [cut, List.splitOn_eq_singleton lacking, List.map_singleton, String.ofList_toList]

theorem cut_intercalate {separator : String} (single : separator.toList = [mark])
    (lacking : ∀ piece ∈ pieces, Lacks mark piece) (ne : pieces ≠ []) :
    cut mark (separator.intercalate pieces) = pieces := by
  rw [cut, String.toList_intercalate, single, List.splitOn_intercalate]
  · rw [List.map_map]
    calc pieces.map (String.ofList ∘ String.toList)
        _ = pieces.map id := List.map_congr_left fun piece _ => String.ofList_toList
        _ = pieces := List.map_id pieces
  · intro chars member
    obtain ⟨piece, inside, rfl⟩ := List.mem_map.mp member
    exact lacking piece inside
  · simpa using ne

/-- Rows that are ended each by the character are the pieces before it, with nothing behind the
last. -/
theorem cut_join {ended : String} (single : ended.toList = [mark])
    (lacking : ∀ piece ∈ pieces, Lacks mark piece) :
    cut mark (.join (pieces.map (· ++ ended))) = pieces ++ [""] := by
  induction pieces with
  | nil => exact cut_of_lacks List.not_mem_nil
  | cons piece pieces ih =>
      obtain ⟨here, later⟩ := List.forall_mem_cons.mp lacking
      rw [List.map_cons, String.join_cons, List.cons_append, ← ih later]
      rw [← List.singleton_append, ← cut_of_lacks here]
      apply cut_append
      simp [single]

/-! ## Lines -/

theorem notMem_of_mem_splitLines {α : Type} [BEq α] [LawfulBEq α] {lf cr : α}
    {chars line : List α} (member : line ∈ splitLines lf cr chars) : lf ∉ line := by
  fun_induction splitLines lf cr chars generalizing line with
  | case1 => cases member
  | case2 => simp_all
  | case3 c other =>
      rw [List.mem_singleton.mp member, List.mem_singleton]
      exact fun same => other (by simp [same])
  | case4 c d rest ends ih =>
      rcases List.mem_cons.mp member with rfl | later
      · exact List.not_mem_nil
      · exact ih later
  | case5 c d rest other returns ih => exact ih member
  | case6 c d rest other inside split ih =>
      rw [List.mem_singleton.mp member, List.mem_singleton]
      exact fun same => other (by simp [same])
  | case7 c d rest other inside first more split ih =>
      rw [split] at ih
      rcases List.mem_cons.mp member with rfl | later
      · rw [List.mem_cons, not_or]
        exact ⟨fun same => other (by simp [same]), ih List.mem_cons_self⟩
      · exact ih (List.mem_cons_of_mem _ later)

end SJava
