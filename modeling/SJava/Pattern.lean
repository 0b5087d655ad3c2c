/-!
# Patterns

Regular patterns over characters, and the longest match of a pattern at the front of a text. The
match is found by derivatives: after a character, a pattern turns into the pattern for what may
follow it. `Pattern.Matches` says which texts a pattern stands for, and `longest_eq_some` that the
search finds the longest of them.
-/

namespace SJava

inductive Pattern
  | nothing
  | empty
  | one (allowed : Char → Bool)
  | seq (first second : Pattern)
  | either (left right : Pattern)
  | many (body : Pattern)

namespace Pattern

def char (c : Char) : Pattern := .one (· == c)

def word (cs : List Char) : Pattern := cs.foldr (fun c rest => .seq (char c) rest) .empty

def optional (body : Pattern) : Pattern := .either body .empty

def oneOrMore (body : Pattern) : Pattern := .seq body (.many body)

inductive Matches : Pattern → List Char → Prop
  | empty : Matches .empty []
  | one {allowed c} : allowed c = true → Matches (.one allowed) [c]
  | seq {first second xs ys} :
      Matches first xs → Matches second ys → Matches (.seq first second) (xs ++ ys)
  | left {left right xs} : Matches left xs → Matches (.either left right) xs
  | right {left right xs} : Matches right xs → Matches (.either left right) xs
  | stop {body} : Matches (.many body) []
  | more {body xs ys} : Matches body xs → Matches (.many body) ys → Matches (.many body) (xs ++ ys)

def isNullable : Pattern → Bool
  | .nothing | .one _ => false
  | .empty | .many _ => true
  | .seq first second => first.isNullable && second.isNullable
  | .either left right => left.isNullable || right.isNullable

/-- A sequence, without the parts that add nothing to it. -/
def andThen : Pattern → Pattern → Pattern
  | .nothing, _ => .nothing
  | .empty, second => second
  | first, second => .seq first second

/-- A choice, without an alternative that stands for no text. -/
def orElse : Pattern → Pattern → Pattern
  | .nothing, right => right
  | left, .nothing => left
  | left, right => .either left right

def after (c : Char) : Pattern → Pattern
  | .nothing | .empty => .nothing
  | .one allowed => if allowed c then .empty else .nothing
  | .seq first second =>
      if first.isNullable then orElse (andThen (first.after c) second) (second.after c)
      else andThen (first.after c) second
  | .either left right => orElse (left.after c) (right.after c)
  | .many body => andThen (body.after c) (.many body)

def longest : Pattern → List Char → Option Nat
  | .nothing, _ => none
  | pattern, [] => if pattern.isNullable then some 0 else none
  | pattern, c :: cs =>
      match (pattern.after c).longest cs with
      | some n => some (n + 1)
      | none => if pattern.isNullable then some 0 else none

theorem matches_empty {cs : List Char} : Matches .empty cs ↔ cs = [] := by
  constructor
  · rintro ⟨⟩
    rfl
  · rintro rfl
    exact .empty

theorem not_matches_nothing {cs : List Char} : ¬Matches .nothing cs := by
  rintro ⟨⟩

theorem matches_one {allowed : Char → Bool} {cs : List Char} :
    Matches (.one allowed) cs ↔ ∃ c, allowed c = true ∧ cs = [c] := by
  constructor
  · rintro ⟨⟩
    exact ⟨_, by assumption, rfl⟩
  · rintro ⟨c, h, rfl⟩
    exact .one h

theorem matches_seq {p q : Pattern} {cs : List Char} :
    Matches (.seq p q) cs ↔ ∃ xs ys, Matches p xs ∧ Matches q ys ∧ cs = xs ++ ys := by
  constructor
  · intro h
    cases h with
    | seq hx hy => exact ⟨_, _, hx, hy, rfl⟩
  · rintro ⟨xs, ys, hx, hy, rfl⟩
    exact .seq hx hy

theorem matches_either {p q : Pattern} {cs : List Char} :
    Matches (.either p q) cs ↔ Matches p cs ∨ Matches q cs := by
  constructor
  · intro h
    cases h with
    | left h => exact .inl h
    | right h => exact .inr h
  · rintro (h | h)
    · exact .left h
    · exact .right h

theorem isNullable_iff {p : Pattern} : p.isNullable = true ↔ Matches p [] := by
  induction p with
  | nothing => simp [isNullable, not_matches_nothing]
  | empty => simp [isNullable, matches_empty]
  | one allowed => simp [isNullable, matches_one]
  | seq p q hp hq =>
      simp only [isNullable, Bool.and_eq_true, hp, hq, matches_seq]
      constructor
      · rintro ⟨hp, hq⟩
        exact ⟨[], [], hp, hq, rfl⟩
      · rintro ⟨xs, ys, hx, hy, h⟩
        obtain ⟨rfl, rfl⟩ := List.append_eq_nil_iff.mp h.symm
        exact ⟨hx, hy⟩
  | either p q hp hq => simp [isNullable, hp, hq, matches_either]
  | many body _ => simp [isNullable, Matches.stop]

theorem matches_andThen {p q : Pattern} {cs : List Char} :
    Matches (andThen p q) cs ↔ Matches (.seq p q) cs := by
  cases p with
  | nothing => simp [andThen, matches_seq, not_matches_nothing]
  | empty => simp [andThen, matches_seq, matches_empty]
  | one | seq | either | many => rfl

theorem matches_orElse {p q : Pattern} {cs : List Char} :
    Matches (orElse p q) cs ↔ Matches (.either p q) cs := by
  unfold orElse
  split <;> simp [matches_either, not_matches_nothing]

theorem matches_many_cons {body : Pattern} {c : Char} {cs : List Char} :
    Matches (.many body) (c :: cs) ↔
      ∃ xs ys, Matches body (c :: xs) ∧ Matches (.many body) ys ∧ cs = xs ++ ys := by
  constructor
  · generalize hp : Pattern.many body = p
    generalize ht : c :: cs = text
    intro h
    induction h with
    | empty | one | seq | left | right => cases hp
    | stop => cases ht
    | @more body' xs ys hx hy _ ih =>
        cases hp
        cases xs with
        | nil => exact ih rfl ht
        | cons d xs =>
            cases ht
            exact ⟨xs, ys, hx, hy, rfl⟩
  · rintro ⟨xs, ys, hx, hy, rfl⟩
    exact .more hx hy

theorem matches_after {p : Pattern} {c : Char} {cs : List Char} :
    Matches (p.after c) cs ↔ Matches p (c :: cs) := by
  induction p generalizing cs with
  | nothing => simp [after, not_matches_nothing]
  | empty => simp [after, not_matches_nothing, matches_empty]
  | one allowed =>
      cases h : allowed c with
      | true =>
          simp only [after, h, if_true, matches_empty, matches_one, List.cons.injEq]
          exact ⟨fun hc => ⟨c, h, rfl, hc⟩, fun ⟨_, _, _, hc⟩ => hc⟩
      | false =>
          simp only [after, h, Bool.false_eq_true, if_false, not_matches_nothing, matches_one,
            false_iff]
          rintro ⟨d, hd, hc⟩
          cases hc
          simp [h] at hd
  | seq p q hp hq =>
      have split_seq : Matches (.seq p q) (c :: cs) ↔
          (p.isNullable = true ∧ Matches q (c :: cs)) ∨
            ∃ xs ys, Matches p (c :: xs) ∧ Matches q ys ∧ cs = xs ++ ys := by
        rw [matches_seq]
        constructor
        · rintro ⟨xs, ys, hx, hy, h⟩
          cases xs with
          | nil => exact .inl ⟨isNullable_iff.mpr hx, by simpa using h ▸ hy⟩
          | cons d xs =>
              cases h
              exact .inr ⟨xs, ys, hx, hy, rfl⟩
        · rintro (⟨hn, hy⟩ | ⟨xs, ys, hx, hy, rfl⟩)
          · exact ⟨[], c :: cs, isNullable_iff.mp hn, hy, rfl⟩
          · exact ⟨c :: xs, ys, hx, hy, rfl⟩
      rw [split_seq]
      unfold after
      split
      · simp_all [matches_orElse, matches_either, matches_andThen, matches_seq, or_comm]
      · simp_all [matches_andThen, matches_seq]
  | either p q hp hq => simp [after, matches_orElse, matches_either, hp, hq]
  | many body h => simp [after, matches_andThen, matches_seq, matches_many_cons, h]

theorem longest_nothing (cs : List Char) : longest .nothing cs = none := by
  cases cs <;> rfl

theorem longest_nil (p : Pattern) : p.longest [] = if p.isNullable then some 0 else none := by
  cases p <;> rfl

theorem longest_cons (p : Pattern) (c : Char) (cs : List Char) :
    p.longest (c :: cs) =
      match (p.after c).longest cs with
      | some n => some (n + 1)
      | none => if p.isNullable then some 0 else none := by
  cases p with
  | nothing => simp [after, isNullable, longest_nothing]
  | empty | one | seq | either | many => rfl

theorem longest_eq_none {p : Pattern} {cs : List Char} (h : p.longest cs = none) (k : Nat) :
    ¬Matches p (cs.take k) := by
  induction cs generalizing p k with
  | nil =>
      rw [longest_nil] at h
      simp_all [← isNullable_iff]
  | cons c cs ih =>
      rw [longest_cons] at h
      cases ha : (p.after c).longest cs with
      | some n => simp [ha] at h
      | none =>
          cases k with
          | zero => simp_all [← isNullable_iff]
          | succ k => exact fun hm => ih ha k (matches_after.mpr hm)

theorem longest_eq_some {p : Pattern} {cs : List Char} {n : Nat} (h : p.longest cs = some n) :
    n ≤ cs.length ∧ Matches p (cs.take n) ∧
      ∀ k, k ≤ cs.length → Matches p (cs.take k) → k ≤ n := by
  induction cs generalizing p n with
  | nil =>
      rw [longest_nil] at h
      split at h
      · cases h
        exact ⟨Nat.le_refl _, isNullable_iff.mp (by assumption), fun k hk _ => hk⟩
      · cases h
  | cons c cs ih =>
      rw [longest_cons] at h
      cases ha : (p.after c).longest cs with
      | some m =>
          rw [ha] at h
          cases h
          obtain ⟨hm, hmatch, hmax⟩ := ih ha
          refine ⟨Nat.succ_le_succ hm, matches_after.mp hmatch, fun k hk hkm => ?_⟩
          cases k with
          | zero => exact Nat.zero_le _
          | succ k =>
              exact Nat.succ_le_succ (hmax k (Nat.le_of_succ_le_succ hk) (matches_after.mpr hkm))
      | none =>
          simp only [ha] at h
          split at h
          · cases h
            refine ⟨Nat.zero_le _, isNullable_iff.mp (by assumption), fun k _ hkm => ?_⟩
            cases k with
            | zero => exact Nat.le_refl _
            | succ k => exact absurd (matches_after.mpr hkm) (longest_eq_none ha k)
          · cases h

end Pattern

end SJava
