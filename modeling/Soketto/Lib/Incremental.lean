import Mathlib.Data.List.Basic
import Mathlib.Tactic.SplitIfs

/-!
# Incremental parsers

An incremental parser looks at the bytes received so far and either returns a value with the
number of bytes it used, or reports how many more bytes it needs, or fails. It keeps no state:
when more bytes arrive it starts again from the first one.

* `Parser`, `take`, `lift`, `reject` and the monad on parsers.
* `Exact p`: what `p` answers never changes when more bytes arrive, except that `needMore n`
  counts down. Every parser built from `take` and `lift` is exact (`exact_bind`, …).
* **`Exact.le_of_needMore`**: an exact parser never asks for a byte beyond the end of its value.
* `Bounded p k`: no value of `p` has more than `k` bytes. `AsksWithin p k`: `p` asks for no byte
  beyond the first `k`.
-/

set_option autoImplicit false

namespace Incremental

/-- The answer of a parser that did not fail. -/
inductive Parsing (α ν : Type) where
  | done (value : α) (offset : ℕ)
  | needMore (n : ν)
  deriving DecidableEq, Repr

/-- Parsers over a byte type `τ` that fail with `ε`. -/
structure Parser (ε τ α : Type) where
  run : List τ → Except ε (Parsing α ℕ)

namespace Parser

variable {ε τ α β : Type}

/-- Exactly `k` bytes. -/
def take (k : ℕ) : Parser ε τ (List τ) where
  run bs := if bs.length < k then .ok (.needMore (k - bs.length)) else .ok (.done (bs.take k) k)

/-- The outcome of a computation that reads no bytes. -/
def lift (x : Except ε α) : Parser ε τ α where
  run _ := x.map fun a => .done a 0

/-- The answer of a parser that starts `off` bytes into the input. -/
def shift (off : ℕ) : Except ε (Parsing α ℕ) → Except ε (Parsing α ℕ)
  | .ok (.done a off') => .ok (.done a (off + off'))
  | x => x

/-- Run `p`, then `f` on the bytes `p` did not use. -/
def bind (p : Parser ε τ α) (f : α → Parser ε τ β) : Parser ε τ β where
  run bs :=
    match p.run bs with
    | .error e => .error e
    | .ok (.needMore n) => .ok (.needMore n)
    | .ok (.done a off) => shift off ((f a).run (bs.drop off))

instance : Monad (Parser ε τ) where
  pure a := lift (.ok a)
  bind := bind

/-- Fail with `e` if `c` holds. -/
def reject (c : Bool) (e : ε) : Parser ε τ Unit := lift (if c then .error e else .ok ())

/-! ## Running a bind -/

theorem run_pure (a : α) (bs : List τ) :
    (pure a : Parser ε τ α).run bs = .ok (.done a 0) := rfl

theorem run_bind_done {p : Parser ε τ α} {f : α → Parser ε τ β} {bs : List τ} {a : α} {off : ℕ}
    (h : p.run bs = .ok (.done a off)) :
    (p >>= f).run bs = shift off ((f a).run (bs.drop off)) := by
  change (Parser.bind p f).run bs = _
  simp only [Parser.bind, h]

theorem run_bind_error {p : Parser ε τ α} (f : α → Parser ε τ β) {bs : List τ} {e : ε}
    (h : p.run bs = .error e) : (p >>= f).run bs = .error e := by
  change (Parser.bind p f).run bs = _
  simp only [Parser.bind, h]

theorem run_bind_needMore {p : Parser ε τ α} (f : α → Parser ε τ β) {bs : List τ} {n : ℕ}
    (h : p.run bs = .ok (.needMore n)) : (p >>= f).run bs = .ok (.needMore n) := by
  change (Parser.bind p f).run bs = _
  simp only [Parser.bind, h]

theorem shift_zero (x : Except ε (Parsing α ℕ)) : shift 0 x = x := by
  rcases x with e | ⟨a, off⟩ | n
  · rfl
  · rw [shift, Nat.zero_add]
  · rfl

theorem shift_eq_done {k : ℕ} {x : Except ε (Parsing α ℕ)} {a : α} {off : ℕ}
    (h : shift k x = .ok (.done a off)) : ∃ off', x = .ok (.done a off') ∧ off = k + off' := by
  rcases x with e | ⟨a', off'⟩ | n <;> cases h
  exact ⟨off', rfl, rfl⟩

theorem shift_eq_error {k : ℕ} {x : Except ε (Parsing α ℕ)} {e : ε}
    (h : shift k x = .error e) : x = .error e := by
  rcases x with e' | ⟨a, off⟩ | n <;> cases h
  rfl

theorem run_lift_bind {x : Except ε α} {a : α} (h : x = .ok a) (f : α → Parser ε τ β)
    (bs : List τ) : (lift x >>= f).run bs = (f a).run bs := by
  have hx : (lift x : Parser ε τ α).run bs = .ok (.done a 0) := by rw [h]; rfl
  rw [run_bind_done hx, shift_zero, List.drop_zero]

theorem run_reject_bind {c : Bool} (h : c = false) (e : ε) (f : Unit → Parser ε τ β)
    (bs : List τ) : (reject c e >>= f).run bs = (f ()).run bs :=
  run_lift_bind (by rw [h]; rfl) f bs

theorem run_take_append {xs : List τ} {k : ℕ} (h : xs.length = k) (s : List τ) :
    (take k : Parser ε τ (List τ)).run (xs ++ s) = .ok (.done xs k) := by
  simp only [take]
  rw [if_neg (by simp [h]), ← h, List.take_left]

theorem run_take_bind {xs : List τ} {k : ℕ} (h : xs.length = k) (f : List τ → Parser ε τ β)
    (s : List τ) : (take k >>= f).run (xs ++ s) = shift k ((f xs).run s) := by
  rw [run_bind_done (run_take_append h s), ← h, List.drop_left]

theorem bind_eq_done {p : Parser ε τ α} {f : α → Parser ε τ β} {bs : List τ} {b : β} {off : ℕ}
    (h : (p >>= f).run bs = .ok (.done b off)) :
    ∃ a o o', p.run bs = .ok (.done a o) ∧ (f a).run (bs.drop o) = .ok (.done b o') ∧
      off = o + o' := by
  rcases hp : p.run bs with e | ⟨a, o⟩ | n
  · rw [run_bind_error f hp] at h; cases h
  · rw [run_bind_done hp] at h
    rcases hf : (f a).run (bs.drop o) with e | ⟨b', o'⟩ | n <;> rw [hf] at h <;> cases h
    exact ⟨a, o, o', rfl, hf, rfl⟩
  · rw [run_bind_needMore f hp] at h; cases h

theorem bind_eq_error {p : Parser ε τ α} {f : α → Parser ε τ β} {bs : List τ} {e : ε}
    (h : (p >>= f).run bs = .error e) :
    p.run bs = .error e ∨
      ∃ a o, p.run bs = .ok (.done a o) ∧ (f a).run (bs.drop o) = .error e := by
  rcases hp : p.run bs with e' | ⟨a, o⟩ | n
  · rw [run_bind_error f hp] at h; cases h; exact Or.inl rfl
  · rw [run_bind_done hp] at h
    rcases hf : (f a).run (bs.drop o) with e' | ⟨b', o'⟩ | n <;> rw [hf] at h <;> cases h
    exact Or.inr ⟨a, o, rfl, hf⟩
  · rw [run_bind_needMore f hp] at h; cases h

theorem bind_eq_needMore {p : Parser ε τ α} {f : α → Parser ε τ β} {bs : List τ} {n : ℕ}
    (h : (p >>= f).run bs = .ok (.needMore n)) :
    p.run bs = .ok (.needMore n) ∨
      ∃ a o, p.run bs = .ok (.done a o) ∧ (f a).run (bs.drop o) = .ok (.needMore n) := by
  rcases hp : p.run bs with e | ⟨a, o⟩ | m
  · rw [run_bind_error f hp] at h; cases h
  · rw [run_bind_done hp] at h
    rcases hf : (f a).run (bs.drop o) with e | ⟨b', o'⟩ | m <;> rw [hf] at h <;> cases h
    exact Or.inr ⟨a, o, rfl, hf⟩
  · rw [run_bind_needMore f hp] at h; cases h; exact Or.inl rfl

theorem lift_eq_done {x : Except ε α} {bs : List τ} {a : α} {off : ℕ}
    (h : (lift x : Parser ε τ α).run bs = .ok (.done a off)) : x = .ok a ∧ off = 0 := by
  cases x with
  | error e => cases h
  | ok a' => cases h; exact ⟨rfl, rfl⟩

theorem reject_eq_done {c : Bool} {e : ε} {bs : List τ} {off : ℕ}
    (h : (reject c e : Parser ε τ Unit).run bs = .ok (.done () off)) : c = false ∧ off = 0 := by
  cases c with
  | false => exact ⟨rfl, (lift_eq_done h).2⟩
  | true => cases h

/-! ## Exact parsers -/

/-- More input never changes the answer of `p`, except that a request for bytes counts down. -/
structure Exact (p : Parser ε τ α) : Prop where
  le : ∀ {bs a off}, p.run bs = .ok (.done a off) → off ≤ bs.length
  done : ∀ {bs a off}, p.run bs = .ok (.done a off) →
    ∀ s, p.run (bs.take off ++ s) = .ok (.done a off)
  error : ∀ {bs e}, p.run bs = .error e → ∀ s, p.run (bs ++ s) = .error e
  pos : ∀ {bs n}, p.run bs = .ok (.needMore n) → 0 < n
  needMore : ∀ {bs n}, p.run bs = .ok (.needMore n) → ∀ s, s.length < n →
    p.run (bs ++ s) = .ok (.needMore (n - s.length))

theorem exact_lift (x : Except ε α) : Exact (lift x : Parser ε τ α) where
  le h := by obtain ⟨-, rfl⟩ := lift_eq_done h; exact Nat.zero_le _
  done h s := by obtain ⟨rfl, rfl⟩ := lift_eq_done h; rfl
  error h _ := h
  pos h := by cases x <;> cases h
  needMore h := by cases x <;> cases h

theorem exact_pure (a : α) : Exact (pure a : Parser ε τ α) := exact_lift _

theorem exact_reject (c : Bool) (e : ε) : Exact (reject c e : Parser ε τ Unit) := exact_lift _

theorem take_eq_done {k : ℕ} {bs xs : List τ} {off : ℕ}
    (h : (take k : Parser ε τ (List τ)).run bs = .ok (.done xs off)) :
    k ≤ bs.length ∧ xs = bs.take k ∧ off = k := by
  unfold take at h
  dsimp only at h
  split_ifs at h with hk
  · cases h
  · cases h; exact ⟨Nat.le_of_not_lt hk, rfl, rfl⟩

theorem take_eq_needMore {k : ℕ} {bs : List τ} {n : ℕ}
    (h : (take k : Parser ε τ (List τ)).run bs = .ok (.needMore n)) :
    bs.length < k ∧ n = k - bs.length := by
  unfold take at h
  dsimp only at h
  split_ifs at h with hk
  · cases h; exact ⟨hk, rfl⟩
  · cases h

theorem exact_take (k : ℕ) : Exact (take k : Parser ε τ (List τ)) where
  le h := by obtain ⟨hk, -, rfl⟩ := take_eq_done h; exact hk
  done h s := by
    obtain ⟨hk, rfl, rfl⟩ := take_eq_done h
    exact run_take_append (by simp [hk]) s
  error h := by unfold take at h; dsimp only at h; split_ifs at h
  pos h := by obtain ⟨hk, rfl⟩ := take_eq_needMore h; omega
  needMore h s hs := by
    obtain ⟨hk, rfl⟩ := take_eq_needMore h
    simp only [take]
    rw [if_pos (by rw [List.length_append]; omega), List.length_append, Nat.sub_sub]

theorem Exact.done_append {p : Parser ε τ α} (hp : Exact p) {bs : List τ} {a : α} {off : ℕ}
    (h : p.run bs = .ok (.done a off)) (s : List τ) : p.run (bs ++ s) = .ok (.done a off) := by
  have := hp.done h (bs.drop off ++ s)
  rwa [← List.append_assoc, List.take_append_drop] at this

/-- **Exact parsers compose.** -/
theorem exact_bind {p : Parser ε τ α} {f : α → Parser ε τ β} (hp : Exact p)
    (hf : ∀ a, Exact (f a)) : Exact (p >>= f) where
  le h := by
    obtain ⟨a, o, o', h₁, h₂, rfl⟩ := bind_eq_done h
    have l₁ := hp.le h₁
    have l₂ := (hf a).le h₂
    rw [List.length_drop] at l₂
    omega
  done {bs b off} h s := by
    obtain ⟨a, o, o', h₁, h₂, rfl⟩ := bind_eq_done h
    have l₁ := hp.le h₁
    have e₁ : bs.take (o + o') ++ s = bs.take o ++ ((bs.drop o).take o' ++ s) := by
      rw [List.take_add, List.append_assoc]
    have e₂ : (bs.take o ++ ((bs.drop o).take o' ++ s)).drop o = (bs.drop o).take o' ++ s :=
      List.drop_left' (by rw [List.length_take]; omega)
    rw [e₁, run_bind_done (hp.done h₁ _), e₂, (hf a).done h₂ s]
    rfl
  error h s := by
    rcases bind_eq_error h with h₁ | ⟨a, o, h₁, h₂⟩
    · exact run_bind_error f (hp.error h₁ s)
    · rw [run_bind_done (hp.done_append h₁ s), List.drop_append_of_le_length (hp.le h₁),
        (hf a).error h₂ s]
      rfl
  pos h := by
    rcases bind_eq_needMore h with h₁ | ⟨a, o, -, h₂⟩
    · exact hp.pos h₁
    · exact (hf a).pos h₂
  needMore h s hs := by
    rcases bind_eq_needMore h with h₁ | ⟨a, o, h₁, h₂⟩
    · exact run_bind_needMore f (hp.needMore h₁ s hs)
    · rw [run_bind_done (hp.done_append h₁ s), List.drop_append_of_le_length (hp.le h₁),
        (hf a).needMore h₂ s hs]
      rfl

theorem exact_ite {p q : Parser ε τ α} (c : Prop) [Decidable c] (hp : Exact p) (hq : Exact q) :
    Exact (if c then p else q) := by
  split_ifs
  · exact hp
  · exact hq

/-- **An exact parser never asks for a byte beyond its value**: a value found once more input has
arrived ends no earlier than the bytes that were asked for. -/
theorem Exact.le_of_needMore {p : Parser ε τ α} (hp : Exact p) {bs s : List τ} {n off : ℕ} {a : α}
    (hn : p.run bs = .ok (.needMore n)) (hd : p.run (bs ++ s) = .ok (.done a off)) :
    bs.length + n ≤ off := by
  by_contra hlt
  have hpos := hp.pos hn
  have hle := hp.le hd
  rw [List.length_append] at hle
  by_cases ho : off ≤ bs.length
  · have h := hp.done hd (bs.drop off)
    rw [List.take_append_of_le_length ho, List.take_append_drop, hn] at h
    cases h
  · have h := hp.done hd []
    have e : (bs ++ s).take off = bs ++ s.take (off - bs.length) := by
      rw [List.take_append, List.take_of_length_le (by omega)]
    rw [List.append_nil, e, hp.needMore hn _ (by rw [List.length_take]; omega)] at h
    cases h

/-- **No value ends early**: an exact parser is not done with less than the bytes of its value. -/
theorem Exact.not_done_of_prefix {p : Parser ε τ α} (hp : Exact p) {bs pre : List τ} {a : α}
    {off : ℕ} (h : p.run bs = .ok (.done a off)) (hpre : pre <+: bs) (hlen : pre.length < off)
    (a' : α) (off' : ℕ) : p.run pre ≠ .ok (.done a' off') := by
  intro h'
  obtain ⟨s, rfl⟩ := hpre
  have hle := hp.le h'
  have hd := hp.done_append h' s
  rw [h] at hd
  cases hd
  omega

/-! ## Bounded parsers -/

/-- A value of `p` has at most `k` bytes. -/
def Bounded (p : Parser ε τ α) (k : ℕ) : Prop :=
  ∀ {bs a off}, p.run bs = .ok (.done a off) → off ≤ k

theorem bounded_take (k : ℕ) : Bounded (take k : Parser ε τ (List τ)) k := by
  intro bs a off h
  obtain ⟨-, -, rfl⟩ := take_eq_done h
  exact Nat.le_refl _

theorem bounded_lift (x : Except ε α) (k : ℕ) : Bounded (lift x : Parser ε τ α) k := by
  intro bs a off h
  obtain ⟨-, rfl⟩ := lift_eq_done h
  exact Nat.zero_le _

theorem bounded_pure (a : α) (k : ℕ) : Bounded (pure a : Parser ε τ α) k := bounded_lift _ _

theorem bounded_reject (c : Bool) (e : ε) (k : ℕ) : Bounded (reject c e : Parser ε τ Unit) k :=
  bounded_lift _ _

/-- **Bounds add up.** -/
theorem bounded_bind {p : Parser ε τ α} {f : α → Parser ε τ β} {j k : ℕ} (hp : Bounded p j)
    (hf : ∀ a, Bounded (f a) k) : Bounded (p >>= f) (j + k) := by
  intro bs b off h
  obtain ⟨a, o, o', h₁, h₂, rfl⟩ := bind_eq_done h
  exact Nat.add_le_add (hp h₁) (hf a h₂)

theorem bounded_ite {p q : Parser ε τ α} (c : Prop) [Decidable c] {k : ℕ} (hp : Bounded p k)
    (hq : Bounded q k) : Bounded (if c then p else q) k := by
  split_ifs
  · exact hp
  · exact hq

/-- What `p` asks for ends within the first `k` bytes. -/
def AsksWithin (p : Parser ε τ α) (k : ℕ) : Prop :=
  ∀ {bs n}, p.run bs = .ok (.needMore n) → bs.length + n ≤ k

theorem asksWithin_take (k : ℕ) : AsksWithin (take k : Parser ε τ (List τ)) k := by
  intro bs n h
  obtain ⟨hlt, rfl⟩ := take_eq_needMore h
  omega

theorem asksWithin_lift (x : Except ε α) (k : ℕ) : AsksWithin (lift x : Parser ε τ α) k := by
  intro bs n h
  cases x <;> cases h

theorem asksWithin_bind {p : Parser ε τ α} {f : α → Parser ε τ β} {j k : ℕ} (hb : Bounded p j)
    (hp : AsksWithin p j) (hf : ∀ a, AsksWithin (f a) k) : AsksWithin (p >>= f) (j + k) := by
  intro bs n h
  rcases bind_eq_needMore h with h₁ | ⟨a, o, h₁, h₂⟩
  · have := hp h₁
    omega
  · have hle := hb h₁
    have hask := hf a h₂
    rw [List.length_drop] at hask
    omega

theorem asksWithin_ite {p q : Parser ε τ α} (c : Prop) [Decidable c] {k : ℕ} (hp : AsksWithin p k)
    (hq : AsksWithin q k) : AsksWithin (if c then p else q) k := by
  split_ifs
  · exact hp
  · exact hq

end Parser

end Incremental
