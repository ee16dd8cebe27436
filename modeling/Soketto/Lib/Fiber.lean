import Mathlib.Data.List.Basic
import Mathlib.Tactic.SplitIfs

/-!
# Fibers that share a locked byte sink

A fiber is an asynchronous computation that may be suspended at each of its effects: drawing a
random word, reading and updating a state shared with other fibers, and locking, writing to,
flushing, closing and unlocking a byte sink. The continuation of a sink operation learns whether
it succeeded.

* `Fiber σ α`: the effect tree, with its monad; `σ` is the shared state.
* `World σ`: the sink, the shared state and the random words to come.
* `Fiber.run`: the meaning of a fiber that runs alone; **`run_bind`**.
* `Fiber.Yields`: what a fiber may return, whatever random words and outcomes it is given;
  **`yields_bind`**, `yields_run`.
* `Fiber.Finishes`: a loop that is over after its rounds.
-/

set_option autoImplicit false

/-- An asynchronous computation of an `α`. -/
inductive Fiber (σ α : Type) where
  | ret (a : α)
  | onRandom (k : UInt32 → Fiber σ α)
  | onShared (f : σ → σ) (k : σ → Fiber σ α)
  | onLock (k : Fiber σ α)
  | onWriteAll (bs : List UInt8) (k : Bool → Fiber σ α)
  | onFlush (k : Bool → Fiber σ α)
  | onClose (k : Bool → Fiber σ α)
  | onUnlock (k : Fiber σ α)

namespace Fiber

variable {σ α β : Type}

/-- Run `t`, then `f` on its result. -/
def bind : Fiber σ α → (α → Fiber σ β) → Fiber σ β
  | ret a, f => f a
  | onRandom k, f => onRandom fun m => (k m).bind f
  | onShared g k, f => onShared g fun s => (k s).bind f
  | onLock k, f => onLock (k.bind f)
  | onWriteAll bs k, f => onWriteAll bs fun ok => (k ok).bind f
  | onFlush k, f => onFlush fun ok => (k ok).bind f
  | onClose k, f => onClose fun ok => (k ok).bind f
  | onUnlock k, f => onUnlock (k.bind f)

instance : Monad (Fiber σ) where
  pure := ret
  bind := bind

/-- Draw a random word. -/
def random : Fiber σ UInt32 := onRandom ret

/-- Update the shared state and return a value, while no other fiber sees it. -/
def locked (g : σ → β × σ) : Fiber σ β := onShared (fun s => (g s).2) fun s => ret (g s).1

/-- Acquire the sink. -/
def lock : Fiber σ Unit := onLock (ret ())

/-- Write all of `bs` to the sink. -/
def writeAll (bs : List UInt8) : Fiber σ Bool := onWriteAll bs ret

/-- Flush the sink. -/
def flush : Fiber σ Bool := onFlush ret

/-- Close the sink. -/
def close : Fiber σ Bool := onClose ret

/-- Release the sink. -/
def unlock : Fiber σ Unit := onUnlock (ret ())

end Fiber

/-- What a fiber that runs alone acts on. `outcomes` tells how the next sink operations end: `none`
is success, `some k` a failure after `k` bytes; beyond its end every operation succeeds. -/
structure World (σ : Type) where
  wire : List UInt8
  closed : Bool
  outcomes : List (Option ℕ)
  shared : σ
  randoms : List UInt32
  deriving DecidableEq, Repr

namespace World

variable {σ : Type}

/-- Write all of `bs`, unless the sink is closed or fails. An empty `bs` takes an outcome as well, so the
sink may fail here where one that is not polled cannot. -/
def writeAll (w : World σ) (bs : List UInt8) : Bool × World σ :=
  if w.closed then (false, w)
  else
    match w.outcomes with
    | some k :: os => (false, { w with wire := w.wire ++ bs.take k, outcomes := os })
    | os => (true, { w with wire := w.wire ++ bs, outcomes := os.tail })

/-- Flush the sink. -/
def flush (w : World σ) : Bool × World σ :=
  match w.outcomes with
  | some _ :: os => (false, { w with outcomes := os })
  | os => (true, { w with outcomes := os.tail })

/-- Close the sink. -/
def close (w : World σ) : Bool × World σ :=
  match w.outcomes with
  | some _ :: os => (false, { w with outcomes := os })
  | os => (true, { w with closed := true, outcomes := os.tail })

/-- The next random word. -/
def random (w : World σ) : UInt32 := w.randoms.headD 0

/-- The sink is open and none of its operations fails. -/
structure Healthy (w : World σ) : Prop where
  closed : w.closed = false
  outcomes : w.outcomes = []

theorem Healthy.writeAll {w : World σ} (h : w.Healthy) (bs : List UInt8) :
    w.writeAll bs = (true, { w with wire := w.wire ++ bs }) := by
  obtain ⟨wire, closed, outcomes, shared, randoms⟩ := w
  obtain ⟨rfl, rfl⟩ := h
  rfl

theorem Healthy.flush {w : World σ} (h : w.Healthy) : w.flush = (true, w) := by
  obtain ⟨wire, closed, outcomes, shared, randoms⟩ := w
  obtain ⟨rfl, rfl⟩ := h
  rfl

theorem Healthy.close {w : World σ} (h : w.Healthy) :
    w.close = (true, { w with closed := true }) := by
  obtain ⟨wire, closed, outcomes, shared, randoms⟩ := w
  obtain ⟨rfl, rfl⟩ := h
  rfl

end World

namespace Fiber

variable {σ α β : Type}

/-- **A fiber that runs alone**: its result and the world it leaves. -/
def run : Fiber σ α → World σ → α × World σ
  | ret a, w => (a, w)
  | onRandom k, w => (k w.random).run { w with randoms := w.randoms.tail }
  | onShared f k, w => (k w.shared).run { w with shared := f w.shared }
  | onLock k, w => k.run w
  | onWriteAll bs k, w => (k (w.writeAll bs).1).run (w.writeAll bs).2
  | onFlush k, w => (k w.flush.1).run w.flush.2
  | onClose k, w => (k w.close.1).run w.close.2
  | onUnlock k, w => k.run w

@[simp] theorem run_pure (a : α) (w : World σ) : (pure a : Fiber σ α).run w = (a, w) := rfl

/-- **Running a bind** is running its parts one after the other. -/
@[simp] theorem run_bind (t : Fiber σ α) (f : α → Fiber σ β) (w : World σ) :
    (t >>= f).run w = (f (t.run w).1).run (t.run w).2 := by
  change (t.bind f).run w = _
  induction t generalizing w with
  | ret a => rfl
  | onRandom k ih => exact ih _ _
  | onShared g k ih => exact ih _ _
  | onLock k ih => exact ih _
  | onWriteAll bs k ih => exact ih _ _
  | onFlush k ih => exact ih _ _
  | onClose k ih => exact ih _ _
  | onUnlock k ih => exact ih _

@[simp] theorem run_random (w : World σ) :
    (random : Fiber σ UInt32).run w = (w.random, { w with randoms := w.randoms.tail }) := rfl

@[simp] theorem run_locked (g : σ → β × σ) (w : World σ) :
    (locked g).run w = ((g w.shared).1, { w with shared := (g w.shared).2 }) := rfl

@[simp] theorem run_lock (w : World σ) : (lock : Fiber σ Unit).run w = ((), w) := rfl

@[simp] theorem run_unlock (w : World σ) : (unlock : Fiber σ Unit).run w = ((), w) := rfl

@[simp] theorem run_writeAll (bs : List UInt8) (w : World σ) :
    (writeAll bs).run w = w.writeAll bs := rfl

@[simp] theorem run_flush (w : World σ) : (flush : Fiber σ Bool).run w = w.flush := rfl

@[simp] theorem run_close (w : World σ) : (close : Fiber σ Bool).run w = w.close := rfl

/-! ## What a fiber may return -/

/-- Beginning with the shared state `s`, the fiber may return `a` and leave the shared state `s'`. -/
def Yields : Fiber σ α → σ → α → σ → Prop
  | ret b, s, a, s' => b = a ∧ s = s'
  | onRandom k, s, a, s' => ∃ m, (k m).Yields s a s'
  | onShared f k, s, a, s' => (k s).Yields (f s) a s'
  | onLock k, s, a, s' => k.Yields s a s'
  | onWriteAll _ k, s, a, s' => ∃ ok, (k ok).Yields s a s'
  | onFlush k, s, a, s' => ∃ ok, (k ok).Yields s a s'
  | onClose k, s, a, s' => ∃ ok, (k ok).Yields s a s'
  | onUnlock k, s, a, s' => k.Yields s a s'

@[simp] theorem yields_pure {a b : α} {s s' : σ} :
    (pure b : Fiber σ α).Yields s a s' ↔ b = a ∧ s = s' := Iff.rfl

@[simp] theorem yields_locked {g : σ → β × σ} {b : β} {s s' : σ} :
    (locked g).Yields s b s' ↔ (g s).1 = b ∧ (g s).2 = s' := Iff.rfl

/-- **What a bind may return** is what its parts may return one after the other. -/
@[simp] theorem yields_bind {t : Fiber σ α} {f : α → Fiber σ β} {b : β} {s s' : σ} :
    (t >>= f).Yields s b s' ↔ ∃ a s₁, t.Yields s a s₁ ∧ (f a).Yields s₁ b s' := by
  change (t.bind f).Yields s b s' ↔ _
  -- an answer of the world is chosen before the parts are run
  have hswap : ∀ {ι : Type} {p : ι → α → σ → Prop} {q : α → σ → Prop},
      (∃ m a s₁, p m a s₁ ∧ q a s₁) ↔ ∃ a s₁, (∃ m, p m a s₁) ∧ q a s₁ :=
    ⟨fun ⟨m, a, s₁, h, h'⟩ => ⟨a, s₁, ⟨m, h⟩, h'⟩, fun ⟨a, s₁, ⟨m, h⟩, h'⟩ => ⟨m, a, s₁, h, h'⟩⟩
  induction t generalizing s with
  | ret a => exact ⟨fun h => ⟨a, s, ⟨rfl, rfl⟩, h⟩, by rintro ⟨_, _, ⟨rfl, rfl⟩, h⟩; exact h⟩
  | onShared g k ih => exact ih s
  | onLock k ih => exact ih
  | onUnlock k ih => exact ih
  | onRandom k ih => exact (exists_congr fun m => ih m).trans hswap
  | onWriteAll bs k ih => exact (exists_congr fun m => ih m).trans hswap
  | onFlush k ih => exact (exists_congr fun m => ih m).trans hswap
  | onClose k ih => exact (exists_congr fun m => ih m).trans hswap

/-- A loop that is given so many rounds is over by then, whatever random words and outcomes it is
given. -/
def Finishes (t : Fiber σ (Option α)) : Prop := ∀ s out s', t.Yields s out s' → ∃ a, out = some a

theorem finishes_some (a : α) : (pure (some a) : Fiber σ (Option α)).Finishes := by
  rintro s out s' ⟨rfl, -⟩
  exact ⟨a, rfl⟩

/-- **A bind finishes** if what follows each result of its first part does. -/
theorem finishes_bind {t : Fiber σ β} {f : β → Fiber σ (Option α)}
    (h : ∀ s b s', t.Yields s b s' → (f b).Finishes) : (t >>= f).Finishes := by
  intro s out s' hy
  obtain ⟨b, s₁, ht, hf⟩ := yields_bind.mp hy
  exact h s b s₁ ht s₁ out s' hf

/-- A fiber that runs alone returns what it may return. -/
theorem yields_run (t : Fiber σ α) (w : World σ) :
    t.Yields w.shared (t.run w).1 (t.run w).2.shared := by
  have hw : ∀ (v : World σ) bs, (v.writeAll bs).2.shared = v.shared := by
    intro v bs
    unfold World.writeAll
    split_ifs
    · rfl
    · split <;> rfl
  have hf : ∀ v : World σ, v.flush.2.shared = v.shared := fun v => by
    unfold World.flush
    split <;> rfl
  have hc : ∀ v : World σ, v.close.2.shared = v.shared := fun v => by
    unfold World.close
    split <;> rfl
  induction t generalizing w with
  | ret a => exact ⟨rfl, rfl⟩
  | onRandom k ih => exact ⟨w.random, ih _ { w with randoms := w.randoms.tail }⟩
  | onShared g k ih => exact ih w.shared { w with shared := g w.shared }
  | onLock k ih => exact ih w
  | onUnlock k ih => exact ih w
  | onWriteAll bs k ih =>
    have h := ih (w.writeAll bs).1 (w.writeAll bs).2
    rw [hw] at h
    exact ⟨_, h⟩
  | onFlush k ih =>
    have h := ih w.flush.1 w.flush.2
    rw [hf] at h
    exact ⟨_, h⟩
  | onClose k ih =>
    have h := ih w.close.1 w.close.2
    rw [hc] at h
    exact ⟨_, h⟩

theorem outcomes_run (t : Fiber σ α) {w : World σ} (hw : w.outcomes = []) :
    (t.run w).2.outcomes = [] := by
  induction t generalizing w with
  | ret a => exact hw
  | onRandom k ih => exact ih _ hw
  | onShared g k ih => exact ih _ hw
  | onLock k ih => exact ih hw
  | onUnlock k ih => exact ih hw
  | onWriteAll bs k ih =>
    refine ih _ ?_
    unfold World.writeAll
    split_ifs
    · exact hw
    · simp only [hw, List.tail_nil]
  | onFlush k ih =>
    refine ih _ ?_
    simp only [World.flush, hw, List.tail_nil]
  | onClose k ih =>
    refine ih _ ?_
    simp only [World.close, hw, List.tail_nil]

theorem run_closed (t : Fiber σ α) {w : World σ} (hw : w.closed = true) :
    (t.run w).2.wire = w.wire ∧ (t.run w).2.closed = true := by
  induction t generalizing w with
  | ret a => exact ⟨rfl, hw⟩
  | onRandom k ih => exact ih _ hw
  | onShared g k ih => exact ih _ hw
  | onLock k ih => exact ih hw
  | onUnlock k ih => exact ih hw
  | onWriteAll bs k ih =>
    have hrefused : w.writeAll bs = (false, w) := if_pos hw
    rw [run, hrefused]
    exact ih _ hw
  | onFlush k ih =>
    have hflush : w.flush.2.wire = w.wire ∧ w.flush.2.closed = true := by
      unfold World.flush
      split <;> exact ⟨rfl, hw⟩
    obtain ⟨h₁, h₂⟩ := ih w.flush.1 hflush.2
    exact ⟨h₁.trans hflush.1, h₂⟩
  | onClose k ih =>
    have hclose : w.close.2.wire = w.wire ∧ w.close.2.closed = true := by
      unfold World.close
      split
      · exact ⟨rfl, hw⟩
      · exact ⟨rfl, rfl⟩
    obtain ⟨h₁, h₂⟩ := ih w.close.1 hclose.2
    exact ⟨h₁.trans hclose.1, h₂⟩

end Fiber

/-- The sink is closed, and flushing or closing it again does not fail. -/
structure World.Parted {σ : Type} (w : World σ) : Prop where
  closed : w.closed = true
  outcomes : w.outcomes = []

namespace World

variable {σ α : Type} {w : World σ}

theorem Parted.writeAll (h : w.Parted) (bs : List UInt8) : w.writeAll bs = (false, w) :=
  if_pos h.closed

theorem Parted.run (h : w.Parted) (t : Fiber σ α) :
    (t.run w).2.Parted ∧ (t.run w).2.wire = w.wire := by
  obtain ⟨h₁, h₂⟩ := Fiber.run_closed t h.closed
  exact ⟨⟨h₂, Fiber.outcomes_run t h.outcomes⟩, h₁⟩

end World
