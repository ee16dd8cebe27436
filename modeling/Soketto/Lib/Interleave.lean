import Mathlib.Data.List.Forall2
import Mathlib.Logic.Function.Basic
import Mathlib.Tactic.SplitIfs

/-!
# Lists made of several parts

A list whose entries are tagged with the part they belong to, such as the log of a sink that
several writers share.

* `part i xs`: the entries of `xs` with the tag `i`, in order.
* `image f xs`: the image of every part under a partial function.
* `filterMap_part`: what only one part contributes to is a matter of that part.
* **`exists_interleaving`**: when every part of a list is related, entry by entry, to the beginning
  of a list, the whole is related to an interleaving of the beginnings.
-/

set_option autoImplicit false

namespace Interleave

variable {ι α β γ : Type} [DecidableEq ι]

/-- Prefixes compose in a chain of steps. -/
instance transIsPrefix : Trans (@List.IsPrefix α) (@List.IsPrefix α) (@List.IsPrefix α) := ⟨List.IsPrefix.trans⟩

/-- The entries with the tag `i`. -/
def part (i : ι) (xs : List (ι × α)) : List α := (xs.filter fun x => x.1 = i).map Prod.snd

@[simp] theorem part_nil (i : ι) : part i ([] : List (ι × α)) = [] := rfl

@[simp] theorem part_cons_self (i : ι) (a : α) (xs : List (ι × α)) :
    part i ((i, a) :: xs) = a :: part i xs := by
  simp [part]

theorem part_cons_ne {i j : ι} (h : j ≠ i) (a : α) (xs : List (ι × α)) :
    part i ((j, a) :: xs) = part i xs := by
  simp [part, h]

theorem part_append (i : ι) (xs ys : List (ι × α)) :
    part i (xs ++ ys) = part i xs ++ part i ys := by
  simp [part]

theorem mem_part {i : ι} {a : α} {xs : List (ι × α)} : a ∈ part i xs ↔ (i, a) ∈ xs := by
  simp [part]

theorem part_filter (p : α → Bool) (i : ι) (xs : List (ι × α)) :
    part i (xs.filter fun x => p x.2) = (part i xs).filter p := by
  induction xs with
  | nil => rfl
  | cons x xs ih =>
    obtain ⟨j, a⟩ := x
    by_cases hj : j = i
    · subst hj
      cases hp : p a <;> simp [hp, ih]
    · cases hp : p a <;> simp [hp, part_cons_ne hj, ih]

/-- What the other parts do not contribute to. -/
theorem filterMap_part {f : α → Option γ} {i : ι} {xs : List (ι × α)}
    (h : ∀ j a, (j, a) ∈ xs → j ≠ i → f a = none) :
    (xs.map Prod.snd).filterMap f = (part i xs).filterMap f := by
  induction xs with
  | nil => rfl
  | cons x xs ih =>
    obtain ⟨j, a⟩ := x
    have ih' := ih fun j b hb => h j b (List.mem_cons_of_mem _ hb)
    by_cases hj : j = i
    · subst hj
      simp only [List.map_cons, part_cons_self, List.filterMap_cons, ih']
    · have ha := h j a List.mem_cons_self hj
      rw [List.map_cons, List.filterMap_cons_none ha, part_cons_ne hj, ih']

/-- The image of every part under a partial function. -/
def image (f : α → Option β) (xs : List (ι × α)) : List (ι × β) :=
  xs.filterMap fun x => (f x.2).map (x.1, ·)

theorem part_image (f : α → Option β) (i : ι) (xs : List (ι × α)) :
    part i (image f xs) = (part i xs).filterMap f := by
  induction xs with
  | nil => rfl
  | cons x xs ih =>
    obtain ⟨j, a⟩ := x
    rw [image] at ih
    by_cases hj : j = i
    · subst hj
      cases hf : f a <;> simp [image, hf, ih]
    · cases hf : f a <;> simp [image, hf, ih, part_cons_ne hj]

omit [DecidableEq ι] in
theorem map_image (f : α → Option β) (xs : List (ι × α)) :
    (image f xs).map Prod.snd = (xs.map Prod.snd).filterMap f := by
  induction xs with
  | nil => rfl
  | cons x xs ih =>
    rw [image] at ih
    cases hf : f x.2 <;> simp [image, hf, ih]

theorem exists_related {R : α → β → Prop} {xs : List α} {ys : List β} (h : List.Forall₂ R xs ys)
    {a : α} (ha : a ∈ xs) : ∃ b ∈ ys, R a b := by
  induction h with
  | nil => cases ha
  | @cons x y xs ys hxy _ ih =>
    rcases List.mem_cons.mp ha with rfl | ha
    · exact ⟨y, List.mem_cons_self, hxy⟩
    · obtain ⟨b, hb, hab⟩ := ih ha
      exact ⟨b, List.mem_cons_of_mem y hb, hab⟩

theorem forall₂_part {R : α → β → Prop} {xs : List (ι × α)} {zs : List (ι × β)}
    (h : List.Forall₂ (fun x z => x.1 = z.1 ∧ R x.2 z.2) xs zs) (i : ι) :
    List.Forall₂ R (part i xs) (part i zs) := by
  induction h with
  | nil => exact .nil
  | @cons x z xs zs hxz _ ih =>
    obtain ⟨j, a⟩ := x
    obtain ⟨k, b⟩ := z
    obtain ⟨rfl, hab⟩ : j = k ∧ R a b := hxz
    by_cases hj : j = i
    · subst hj
      rw [part_cons_self, part_cons_self]
      exact .cons hab ih
    · rw [part_cons_ne hj, part_cons_ne hj]
      exact ih

/-- **The whole is related to an interleaving** of what the parts are related to. What is `more`
than the part `i` is related to what is left. -/
theorem exists_interleaving {R : α → β → Prop} {xs : List (ι × α)} {more : ι → List α}
    {ys : ι → List β} (h : ∀ i, List.Forall₂ R (part i xs ++ more i) (ys i)) :
    ∃ (zs : List (ι × β)) (rest : ι → List β),
      List.Forall₂ (fun x z => x.1 = z.1 ∧ R x.2 z.2) xs zs ∧
      ∀ i, ys i = part i zs ++ rest i ∧ List.Forall₂ R (more i) (rest i) := by
  induction xs generalizing ys with
  | nil => exact ⟨[], ys, .nil, fun i => ⟨rfl, h i⟩⟩
  | cons x xs ih =>
    obtain ⟨j, a⟩ := x
    -- the first entry of the part `j` goes with the first entry of `ys j`
    have hj := h j
    rw [part_cons_self, List.cons_append] at hj
    generalize hys : ys j = y at hj
    cases hj with
    | @cons _ b _ ys' hab htl =>
      have hrest : ∀ i, List.Forall₂ R (part i xs ++ more i) (Function.update ys j ys' i) := by
        intro i
        by_cases hi : i = j
        · subst hi
          rw [Function.update_self]
          exact htl
        · rw [Function.update_of_ne hi, ← part_cons_ne (Ne.symm hi) a]
          exact h i
      obtain ⟨zs, rest, hzs, hparts⟩ := ih hrest
      refine ⟨(j, b) :: zs, rest, .cons ⟨rfl, hab⟩ hzs, fun i => ⟨?_, (hparts i).2⟩⟩
      have hi := (hparts i).1
      by_cases hij : i = j
      · subst hij
        rw [Function.update_self] at hi
        rw [hys, part_cons_self, hi, List.cons_append]
      · rw [Function.update_of_ne hij] at hi
        rw [part_cons_ne (Ne.symm hij), hi]

end Interleave
