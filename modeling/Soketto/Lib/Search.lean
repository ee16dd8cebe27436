import Mathlib.Data.List.Infix
import Mathlib.Data.Option.Basic

/-!
# Searching a pattern in a growing buffer

A pattern is searched in longer and longer prefixes of a list.

* `Search.firstEnd`: where the first occurrence of a pattern ends; **`infix_take_iff`**.
* **`infix_drop_iff`**: what was searched before, but for the length of the pattern, can be skipped.
-/

set_option autoImplicit false

namespace Search

variable {α : Type} {p xs : List α}

section FirstEnd

variable [BEq α]

/-- The number of elements up to the end of the first occurrence of `p`. -/
def firstEnd (p : List α) : List α → Option ℕ
  | [] => none
  | x :: xs => if p.isPrefixOf (x :: xs) then some p.length else (firstEnd p xs).map (· + 1)

theorem length_le_firstEnd {e : ℕ} (h : e ∈ firstEnd p xs) : p.length ≤ e := by
  induction xs generalizing e with
  | nil => cases h
  | cons x xs ih =>
    rw [firstEnd] at h
    split_ifs at h
    · cases h
      exact le_refl _
    · obtain ⟨e', he', rfl⟩ := Option.mem_map.mp h
      exact Nat.le_succ_of_le (ih he')

/-- **A prefix has the pattern in it** if and only if it reaches the end of the first occurrence. -/
theorem infix_take_iff [LawfulBEq α] (hp : p ≠ []) (k : ℕ) :
    p <:+: xs.take k ↔ ∃ e ∈ firstEnd p xs, e ≤ k := by
  induction xs generalizing k with
  | nil => simp [firstEnd, hp]
  | cons x xs ih =>
    cases k with
    | zero =>
      have hpos : 0 < p.length := List.length_pos_iff.mpr hp
      simp only [List.take_zero, List.infix_nil, hp, false_iff, not_exists, not_and]
      intro e he hle
      have := length_le_firstEnd he
      omega
    | succ k =>
      rw [List.take_succ_cons, List.infix_cons_iff, ih, ← List.take_succ_cons, List.prefix_take_iff,
        firstEnd]
      by_cases hpre : p <+: x :: xs
      · rw [if_pos (List.isPrefixOf_iff_prefix.mpr hpre)]
        constructor
        · rintro (h | ⟨e, he, hle⟩)
          · exact ⟨_, rfl, h.2⟩
          · exact ⟨_, rfl, (length_le_firstEnd he).trans (Nat.le_succ_of_le hle)⟩
        · rintro ⟨e, he, hle⟩
          cases he
          exact Or.inl ⟨hpre, hle⟩
      · rw [if_neg (by rwa [List.isPrefixOf_iff_prefix])]
        constructor
        · rintro (h | ⟨e, he, hle⟩)
          · exact absurd h.1 hpre
          · exact ⟨e + 1, Option.mem_map_of_mem _ he, Nat.succ_le_succ hle⟩
        · rintro ⟨e, he, hle⟩
          obtain ⟨e', he', rfl⟩ := Option.mem_map.mp he
          exact Or.inr ⟨e', he', Nat.le_of_succ_le_succ hle⟩

theorem firstEnd_append_of_not_mem [LawfulBEq α] {a : α} {ys : List α} (h : a ∉ ys) (xs : List α) :
    firstEnd (a :: p) (ys ++ xs) = (firstEnd (a :: p) xs).map (· + ys.length) := by
  induction ys with
  | nil => simp
  | cons y ys ih =>
    have hne : a ≠ y := fun he => h (he ▸ List.mem_cons_self)
    have hpre : (a :: p).isPrefixOf (y :: (ys ++ xs)) = false := by
      simp [List.isPrefixOf, hne]
    rw [List.cons_append, firstEnd, if_neg (by simp [hpre]),
      ih fun hm => h (List.mem_cons_of_mem _ hm), Option.map_map]
    rfl

end FirstEnd

/-- **The search may skip** what has no occurrence in it, but for the length of the pattern. -/
theorem infix_drop_iff {i j k : ℕ} (hno : ¬ p <:+: xs.take i) (hj : j ≤ i - p.length) :
    p <:+: (xs.take k).drop j ↔ p <:+: xs.take k := by
  constructor
  · exact fun h => h.trans (List.drop_suffix j _).isInfix
  · rintro ⟨s, t, heq⟩
    have hs : j ≤ s.length := by
      by_contra hlt
      have hlen : (s ++ p).length ≤ i := by
        rw [List.length_append]
        omega
      have hxs : xs = s ++ p ++ (t ++ xs.drop k) := by
        rw [← List.append_assoc, heq, List.take_append_drop]
      have htake : xs.take i = s ++ p ++ (t ++ xs.drop k).take (i - (s ++ p).length) := by
        conv_lhs => rw [hxs, List.take_append, List.take_of_length_le hlen]
      exact hno ⟨s, _, htake.symm⟩
    refine ⟨s.drop j, t, ?_⟩
    rw [← heq, List.append_assoc, List.append_assoc, List.drop_append_of_le_length hs]

end Search
