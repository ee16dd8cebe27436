import Soketto.Lib.Race

/-!
# Fibers that race for a sink that may break

The fibers of a race share a sink that may break at any time, also in the middle of a write: a
write fails, or the sink is closed. A broken sink takes no more bytes.

* `Fiber.Returns`: what a fiber may return, whatever happens around it; **`returns_bind`**.
* `Fuse`: the fibers with the sink, and whether it is broken; `Fuse.Step`: one effect, or the break.
* **`Fuse.reachable_written`**, `reachable`: what a broken sink holds, and what a fiber has written, is as
  it was at some moment of a race in which nothing failed.
* **`Fuse.returns`**: the fibers return what they may return.
-/

set_option autoImplicit false

namespace Fiber

variable {σ α β : Type}

/-- The fiber may return `a`, for some random words, shared states and outcomes. -/
def Returns : Fiber σ α → α → Prop
  | ret b, a => b = a
  | onRandom k, a => ∃ m, (k m).Returns a
  | onShared _ k, a => ∃ s, (k s).Returns a
  | onLock k, a => k.Returns a
  | onWriteAll _ k, a => ∃ ok, (k ok).Returns a
  | onFlush k, a => ∃ ok, (k ok).Returns a
  | onClose k, a => ∃ ok, (k ok).Returns a
  | onUnlock k, a => k.Returns a

@[simp] theorem returns_pure {a b : α} : (pure b : Fiber σ α).Returns a ↔ b = a := Iff.rfl

/-- **What a bind may return** is what its parts may return. -/
theorem returns_bind {t : Fiber σ α} {f : α → Fiber σ β} {b : β} :
    (t >>= f).Returns b ↔ ∃ a, t.Returns a ∧ (f a).Returns b := by
  change (t.bind f).Returns b ↔ _
  -- an answer of the world is chosen before the parts are run
  have hswap : ∀ {κ : Type} {p : κ → α → Prop},
      (∃ m a, p m a ∧ (f a).Returns b) ↔ ∃ a, (∃ m, p m a) ∧ (f a).Returns b :=
    ⟨fun ⟨m, a, h, h'⟩ => ⟨a, ⟨m, h⟩, h'⟩, fun ⟨a, ⟨m, h⟩, h'⟩ => ⟨m, a, h, h'⟩⟩
  induction t with
  | ret a => exact ⟨fun h => ⟨a, rfl, h⟩, fun ⟨_, h, h'⟩ => h ▸ h'⟩
  | onLock k ih => exact ih
  | onUnlock k ih => exact ih
  | onRandom k ih => exact (exists_congr fun m => ih m).trans hswap
  | onShared g k ih => exact (exists_congr fun s => ih s).trans hswap
  | onWriteAll bs k ih => exact (exists_congr fun ok => ih ok).trans hswap
  | onFlush k ih => exact (exists_congr fun ok => ih ok).trans hswap
  | onClose k ih => exact (exists_congr fun ok => ih ok).trans hswap

theorem Traces.returns {t : Fiber σ α} {c c' : Option (List UInt8)} {secs : List (List UInt8)}
    {a : α} (h : t.Traces c secs a c') : t.Returns a := by
  induction t generalizing c secs with
  | ret b => exact h.1
  | onRandom k ih =>
    obtain ⟨m, h⟩ := h
    exact ⟨m, ih m h⟩
  | onShared g k ih =>
    obtain ⟨s, h⟩ := h
    exact ⟨s, ih s h⟩
  | onLock k ih => cases c <;> first | exact ih h | exact h.elim
  | onWriteAll bs k ih => cases c <;> first | exact ⟨true, ih true h⟩ | exact h.elim
  | onFlush k ih =>
    obtain ⟨ok, h⟩ := h
    exact ⟨ok, ih ok h⟩
  | onClose k ih =>
    obtain ⟨ok, h⟩ := h
    exact ⟨ok, ih ok h⟩
  | onUnlock k ih =>
    cases c with
    | none => exact h.elim
    | some c =>
      obtain ⟨secs', rfl, h⟩ := h
      exact ih h

end Fiber

/-- The bytes that the fiber `i` has written. -/
def Race.written {ι σ : Type} [DecidableEq ι] {α : ι → Type} (st : Race ι α σ) (i : ι) : List UInt8 :=
  (st.sections i).flatten ++ (st.held i).getD []

/-- A race for a sink that may be broken. -/
structure Fuse (ι : Type) (α : ι → Type) (σ : Type) extends Race ι α σ where
  broken : Bool

namespace Fuse

variable {ι σ : Type} [DecidableEq ι] {α : ι → Type}

/-- Before any fiber has begun. -/
def init (fibers : (i : ι) → Fiber σ (α i)) (shared : σ) : Fuse ι α σ :=
  ⟨.init fibers shared, false⟩

/-- The next effect of the fiber `i` has been carried out; `t` is left. -/
def advance (st : Fuse ι α σ) (i : ι) (t : Fiber σ (α i)) : Fuse ι α σ :=
  { st with toRace := st.toRace.advance i t }

/-- A step of the race, the break, or one effect of a fiber after it. -/
inductive Step (st : Fuse ι α σ) : Fuse ι α σ → Prop
  | whole {r : Race ι α σ} (hw : st.broken = false) (h : st.toRace.Step r) : Step st ⟨r, false⟩
  | breaks : Step st { st with broken := true }
  | random {i : ι} {k : UInt32 → Fiber σ (α i)} (m : UInt32) (hb : st.broken = true)
      (h : st.fibers i = .onRandom k) : Step st (st.advance i (k m))
  | shared {i : ι} {f : σ → σ} {k : σ → Fiber σ (α i)} (hb : st.broken = true)
      (h : st.fibers i = .onShared f k) :
      Step st { st.advance i (k st.shared) with shared := f st.shared }
  | lock {i : ι} {k : Fiber σ (α i)} (hb : st.broken = true) (h : st.fibers i = .onLock k)
      (hfree : st.current = none) : Step st { st.advance i k with current := some (i, []) }
  | rejected {i : ι} {bs : List UInt8} {k : Bool → Fiber σ (α i)} (hb : st.broken = true)
      (h : st.fibers i = .onWriteAll bs k) : Step st (st.advance i (k false))
  | flush {i : ι} {k : Bool → Fiber σ (α i)} (ok : Bool) (hb : st.broken = true)
      (h : st.fibers i = .onFlush k) : Step st (st.advance i (k ok))
  | close {i : ι} {k : Bool → Fiber σ (α i)} (ok : Bool) (hb : st.broken = true)
      (h : st.fibers i = .onClose k) : Step st (st.advance i (k ok))
  | unlock {i : ι} {k : Fiber σ (α i)} {c : List UInt8} (hb : st.broken = true)
      (h : st.fibers i = .onUnlock k) (hc : st.current = some (i, c)) :
      Step st { st.advance i k with done := st.done ++ [(i, c)], current := none }

/-- **A broken sink holds what it held when it broke**, at a moment of a race in which nothing
failed, and each fiber has written what it had written then. -/
theorem reachable_written {fibers : (i : ι) → Fiber σ (α i)} {shared : σ} {st : Fuse ι α σ}
    (h : Relation.ReflTransGen Step (init fibers shared) st) :
    ∃ r : Race ι α σ, Relation.ReflTransGen Race.Step (Race.init fibers shared) r ∧
      st.wire = r.wire ∧ (st.broken = false → st.toRace = r) ∧ ∀ i, st.written i = r.written i := by
  induction h with
  | refl => exact ⟨_, .refl, rfl, fun _ => rfl, fun _ => rfl⟩
  | @tail st st' _ hs ih =>
    obtain ⟨r, hr, hwire, hsame, hwritten⟩ := ih
    have hkeep : ∀ {st'' : Fuse ι α σ}, st.broken = true → st''.broken = st.broken →
        st''.wire = st.wire → (∀ i, st''.written i = st.written i) →
        ∃ r : Race ι α σ, Relation.ReflTransGen Race.Step (Race.init fibers shared) r ∧
          st''.wire = r.wire ∧ (st''.broken = false → st''.toRace = r) ∧
          ∀ i, st''.written i = r.written i :=
      fun hb hsame' hw hwr => ⟨r, hr, hw.trans hwire, fun h => (by
        rw [hsame', hb] at h
        cases h), fun i => (hwr i).trans (hwritten i)⟩
    cases hs with
    | @whole r' hw hstep =>
      rw [hsame hw] at hstep
      exact ⟨r', hr.tail hstep, rfl, fun _ => rfl, fun _ => rfl⟩
    | breaks => exact ⟨r, hr, hwire, fun h => (by cases h), hwritten⟩
    | random m hb => exact hkeep hb rfl rfl fun _ => rfl
    | shared hb => exact hkeep hb rfl rfl fun _ => rfl
    | @lock i k hb hf hfree =>
      refine hkeep hb rfl rfl fun j => ?_
      by_cases hj : i = j
      · simp [Race.written, Race.held, Race.sections, hfree, hj, advance, Race.advance]
      · simp [Race.written, Race.held, Race.sections, hfree, hj, advance, Race.advance]
    | rejected hb => exact hkeep hb rfl rfl fun _ => rfl
    | flush ok hb => exact hkeep hb rfl rfl fun _ => rfl
    | close ok hb => exact hkeep hb rfl rfl fun _ => rfl
    | @unlock i k c hb hf hc =>
      refine hkeep hb rfl rfl fun j => ?_
      by_cases hj : i = j
      · simp [Race.written, Race.held, Race.sections, hc, hj]
      · simp [Race.written, Race.held, Race.sections, hc, hj]

/-- What a broken sink holds is what it held at some moment of a race in which nothing failed. -/
theorem reachable {fibers : (i : ι) → Fiber σ (α i)} {shared : σ} {st : Fuse ι α σ}
    (h : Relation.ReflTransGen Step (init fibers shared) st) :
    ∃ r : Race ι α σ, Relation.ReflTransGen Race.Step (Race.init fibers shared) r ∧
      st.wire = r.wire ∧ (st.broken = false → st.toRace = r) := by
  obtain ⟨r, hr, hwire, hsame, -⟩ := reachable_written h
  exact ⟨r, hr, hwire, hsame⟩

/-- **The fibers return what they may return**, whether the sink is broken or not. -/
theorem returns {fibers : (i : ι) → Fiber σ (α i)} {shared : σ} {st : Fuse ι α σ}
    (h : Relation.ReflTransGen Step (init fibers shared) st) {i : ι} {a : α i}
    (ha : (st.fibers i).Returns a) : (fibers i).Returns a := by
  induction h with
  | refl => exact ha
  | @tail st st' _ hs ih =>
    -- the fiber that moves on may return what it may return afterwards
    have hmove : ∀ {j : ι} {t : Fiber σ (α j)}, (Function.update st.fibers j t i).Returns a →
        (∀ b, t.Returns b → (st.fibers j).Returns b) → (fibers i).Returns a := by
      intro j t ht hj
      by_cases hij : i = j
      · subst hij
        rw [Function.update_self] at ht
        exact ih (hj a ht)
      · rw [Function.update_of_ne hij] at ht
        exact ih ht
    cases hs with
    | whole hw hstep =>
      cases hstep with
      | random m hf => exact hmove ha fun b hb => by rw [hf]; exact ⟨m, hb⟩
      | shared hf => exact hmove ha fun b hb => by rw [hf]; exact ⟨st.shared, hb⟩
      | lock hf => exact hmove ha fun b hb => by rw [hf]; exact hb
      | write bs rest hf => exact hmove ha fun b hb => by rw [hf]; exact hb
      | written hf => exact hmove ha fun b hb => by rw [hf]; exact ⟨true, hb⟩
      | flush ok hf => exact hmove ha fun b hb => by rw [hf]; exact ⟨ok, hb⟩
      | close ok hf => exact hmove ha fun b hb => by rw [hf]; exact ⟨ok, hb⟩
      | unlock hf => exact hmove ha fun b hb => by rw [hf]; exact hb
    | breaks => exact ih ha
    | random m _ hf => exact hmove ha fun b hb => by rw [hf]; exact ⟨m, hb⟩
    | shared _ hf => exact hmove ha fun b hb => by rw [hf]; exact ⟨st.shared, hb⟩
    | lock _ hf => exact hmove ha fun b hb => by rw [hf]; exact hb
    | rejected _ hf => exact hmove ha fun b hb => by rw [hf]; exact ⟨false, hb⟩
    | flush ok _ hf => exact hmove ha fun b hb => by rw [hf]; exact ⟨ok, hb⟩
    | close ok _ hf => exact hmove ha fun b hb => by rw [hf]; exact ⟨ok, hb⟩
    | unlock _ hf => exact hmove ha fun b hb => by rw [hf]; exact hb

end Fuse
