import Mathlib.Logic.Function.Basic
import Mathlib.Logic.Relation
import Soketto.Lib.Fiber

/-!
# Fibers that race for the sink

Any number of fibers take turns at their effects. A fiber may be suspended before each of them, and
in the middle of a write; the lock of the sink has one holder at a time. Writes succeed.

* `Fiber.Traces`: the critical sections a fiber goes through, each with the bytes it writes;
  **`traces_bind`**.
* `Fiber.Guarded`: the fiber writes under the lock only; **`guarded_bind`**. `Fiber.Quiet`: it does
  not write at all.
* `Race`: the fibers with the sink, and the sections in the order in which the lock was acquired.
* **`Race.reachable`**: the sink holds the sections one after the other, and the sections of each
  fiber are those it goes through, in its own order.
-/

set_option autoImplicit false

namespace Fiber

variable {σ α β : Type}

/-- With `c` written in the section the fiber is in, if it is in one, it may finish the sections
`secs`, return `a` and be left with `c'`. Writes succeed; random words, the shared state and the
outcomes of other operations are arbitrary. -/
def Traces : Fiber σ α → Option (List UInt8) → List (List UInt8) → α → Option (List UInt8) → Prop
  | ret b, c, secs, a, c' => b = a ∧ secs = [] ∧ c' = c
  | onRandom k, c, secs, a, c' => ∃ m, (k m).Traces c secs a c'
  | onShared _ k, c, secs, a, c' => ∃ s, (k s).Traces c secs a c'
  | onLock k, none, secs, a, c' => k.Traces (some []) secs a c'
  | onLock _, some _, _, _, _ => False
  | onWriteAll bs k, some c, secs, a, c' => (k true).Traces (some (c ++ bs)) secs a c'
  | onWriteAll _ _, none, _, _, _ => False
  | onFlush k, c, secs, a, c' => ∃ ok, (k ok).Traces c secs a c'
  | onClose k, c, secs, a, c' => ∃ ok, (k ok).Traces c secs a c'
  | onUnlock k, some c, secs, a, c' => ∃ secs', secs = c :: secs' ∧ k.Traces none secs' a c'
  | onUnlock _, none, _, _, _ => False

/-- With `c` written in the section the fiber is in, the fiber keeps to the lock, and it is left
with what it returns and `c'` such that `Q`. -/
def Guarded : Fiber σ α → Option (List UInt8) → (α → Option (List UInt8) → Prop) → Prop
  | ret a, c, Q => Q a c
  | onRandom k, c, Q => ∀ m, (k m).Guarded c Q
  | onShared _ k, c, Q => ∀ s, (k s).Guarded c Q
  | onLock k, none, Q => k.Guarded (some []) Q
  | onLock _, some _, _ => False
  | onWriteAll bs k, some c, Q => (k true).Guarded (some (c ++ bs)) Q
  | onWriteAll _ _, none, _ => False
  | onFlush k, some c, Q => ∀ ok, (k ok).Guarded (some c) Q
  | onFlush _, none, _ => False
  | onClose k, some c, Q => ∀ ok, (k ok).Guarded (some c) Q
  | onClose _, none, _ => False
  | onUnlock k, some _, Q => k.Guarded none Q
  | onUnlock _, none, _ => False

@[simp] theorem traces_pure {a b : α} {c c' : Option (List UInt8)} {secs : List (List UInt8)} :
    (pure b : Fiber σ α).Traces c secs a c' ↔ b = a ∧ secs = [] ∧ c' = c := Iff.rfl

section

variable {c : Option (List UInt8)} {d bs : List UInt8} {secs : List (List UInt8)}

@[simp] theorem traces_random {m : UInt32} {c' : Option (List UInt8)} :
    (random : Fiber σ UInt32).Traces c secs m c' ↔ secs = [] ∧ c' = c :=
  ⟨fun ⟨_, _, h⟩ => h, fun h => ⟨m, rfl, h⟩⟩

@[simp] theorem traces_locked {g : σ → β × σ} {b : β} {c' : Option (List UInt8)} :
    (locked g).Traces c secs b c' ↔ (∃ s, (g s).1 = b) ∧ secs = [] ∧ c' = c :=
  ⟨fun ⟨s, h₁, h₂⟩ => ⟨⟨s, h₁⟩, h₂⟩, fun ⟨⟨s, h₁⟩, h₂⟩ => ⟨s, h₁, h₂⟩⟩

@[simp] theorem traces_lock {u : Unit} {c' : Option (List UInt8)} :
    (lock : Fiber σ Unit).Traces none secs u c' ↔ secs = [] ∧ c' = some [] :=
  ⟨fun ⟨_, h⟩ => h, fun h => ⟨rfl, h⟩⟩

@[simp] theorem traces_writeAll {ok : Bool} {c' : Option (List UInt8)} :
    (writeAll bs : Fiber σ Bool).Traces (some d) secs ok c' ↔
      ok = true ∧ secs = [] ∧ c' = some (d ++ bs) :=
  ⟨fun ⟨h₁, h₂⟩ => ⟨h₁.symm, h₂⟩, fun ⟨h₁, h₂⟩ => ⟨h₁.symm, h₂⟩⟩

@[simp] theorem traces_flush {ok : Bool} {c' : Option (List UInt8)} :
    (flush : Fiber σ Bool).Traces c secs ok c' ↔ secs = [] ∧ c' = c :=
  ⟨fun ⟨_, _, h⟩ => h, fun h => ⟨ok, rfl, h⟩⟩

@[simp] theorem traces_close {ok : Bool} {c' : Option (List UInt8)} :
    (close : Fiber σ Bool).Traces c secs ok c' ↔ secs = [] ∧ c' = c :=
  ⟨fun ⟨_, _, h⟩ => h, fun h => ⟨ok, rfl, h⟩⟩

@[simp] theorem traces_unlock {u : Unit} {c' : Option (List UInt8)} :
    (unlock : Fiber σ Unit).Traces (some d) secs u c' ↔ secs = [d] ∧ c' = none := by
  constructor
  · rintro ⟨_, rfl, -, rfl, rfl⟩
    exact ⟨rfl, rfl⟩
  · rintro ⟨rfl, rfl⟩
    exact ⟨[], rfl, rfl, rfl, rfl⟩

@[simp] theorem guarded_pure {a : α} {Q : α → Option (List UInt8) → Prop} :
    (pure a : Fiber σ α).Guarded c Q ↔ Q a c := Iff.rfl

@[simp] theorem guarded_random {Q : UInt32 → Option (List UInt8) → Prop} :
    (random : Fiber σ UInt32).Guarded c Q ↔ ∀ m, Q m c := Iff.rfl

@[simp] theorem guarded_locked {g : σ → β × σ} {Q : β → Option (List UInt8) → Prop} :
    (locked g).Guarded c Q ↔ ∀ s, Q (g s).1 c := Iff.rfl

@[simp] theorem guarded_lock {Q : Unit → Option (List UInt8) → Prop} :
    (lock : Fiber σ Unit).Guarded none Q ↔ Q () (some []) := Iff.rfl

@[simp] theorem guarded_writeAll {Q : Bool → Option (List UInt8) → Prop} :
    (writeAll bs : Fiber σ Bool).Guarded (some d) Q ↔ Q true (some (d ++ bs)) := Iff.rfl

@[simp] theorem guarded_flush {Q : Bool → Option (List UInt8) → Prop} :
    (flush : Fiber σ Bool).Guarded (some d) Q ↔ ∀ ok, Q ok (some d) := Iff.rfl

@[simp] theorem guarded_close {Q : Bool → Option (List UInt8) → Prop} :
    (close : Fiber σ Bool).Guarded (some d) Q ↔ ∀ ok, Q ok (some d) := Iff.rfl

@[simp] theorem guarded_unlock {Q : Unit → Option (List UInt8) → Prop} :
    (unlock : Fiber σ Unit).Guarded (some d) Q ↔ Q () none := Iff.rfl

end

/-- **The sections of a bind** are those of its parts. -/
theorem traces_bind {t : Fiber σ α} {f : α → Fiber σ β} {c c' : Option (List UInt8)}
    {secs : List (List UInt8)} {b : β} :
    (t >>= f).Traces c secs b c' ↔ ∃ secs₁ secs₂ a c₁, secs = secs₁ ++ secs₂ ∧
      t.Traces c secs₁ a c₁ ∧ (f a).Traces c₁ secs₂ b c' := by
  change (t.bind f).Traces c secs b c' ↔ _
  have hswap : ∀ {ι : Type} {p : ι → List (List UInt8) → α → Option (List UInt8) → Prop}
      {ss : List (List UInt8)},
      (∃ m secs₁ secs₂ a c₁, ss = secs₁ ++ secs₂ ∧ p m secs₁ a c₁ ∧
        (f a).Traces c₁ secs₂ b c') ↔
      ∃ secs₁ secs₂ a c₁, ss = secs₁ ++ secs₂ ∧ (∃ m, p m secs₁ a c₁) ∧
        (f a).Traces c₁ secs₂ b c' :=
    ⟨fun ⟨m, s₁, s₂, a, c₁, h, h₁, h₂⟩ => ⟨s₁, s₂, a, c₁, h, ⟨m, h₁⟩, h₂⟩,
      fun ⟨s₁, s₂, a, c₁, h, ⟨m, h₁⟩, h₂⟩ => ⟨m, s₁, s₂, a, c₁, h, h₁, h₂⟩⟩
  induction t generalizing c secs with
  | ret a =>
    constructor
    · exact fun h => ⟨[], secs, a, c, rfl, ⟨rfl, rfl, rfl⟩, h⟩
    · rintro ⟨_, secs₂, _, _, rfl, ⟨rfl, rfl, rfl⟩, h⟩
      exact h
  | onRandom k ih => exact (exists_congr fun m => ih m).trans hswap
  | onShared g k ih => exact (exists_congr fun s => ih s).trans hswap
  | onFlush k ih => exact (exists_congr fun ok => ih ok).trans hswap
  | onClose k ih => exact (exists_congr fun ok => ih ok).trans hswap
  | onLock k ih =>
    cases c with
    | none => exact ih
    | some c => exact ⟨False.elim, fun ⟨_, _, _, _, _, h, _⟩ => h.elim⟩
  | onWriteAll bs k ih =>
    cases c with
    | none => exact ⟨False.elim, fun ⟨_, _, _, _, _, h, _⟩ => h.elim⟩
    | some c => exact ih true
  | onUnlock k ih =>
    cases c with
    | none => exact ⟨False.elim, fun ⟨_, _, _, _, _, h, _⟩ => h.elim⟩
    | some c =>
      constructor
      · rintro ⟨secs', rfl, h⟩
        obtain ⟨s₁, s₂, a, c₁, rfl, h₁, h₂⟩ := ih.mp h
        exact ⟨c :: s₁, s₂, a, c₁, rfl, ⟨s₁, rfl, h₁⟩, h₂⟩
      · rintro ⟨_, s₂, a, c₁, rfl, ⟨s₁, rfl, h₁⟩, h₂⟩
        exact ⟨s₁ ++ s₂, rfl, ih.mpr ⟨s₁, s₂, a, c₁, rfl, h₁, h₂⟩⟩

/-- **A bind is guarded** if its parts are. -/
theorem guarded_bind {t : Fiber σ α} {f : α → Fiber σ β}
    {c : Option (List UInt8)} {Q : β → Option (List UInt8) → Prop} :
    (t >>= f).Guarded c Q ↔ t.Guarded c fun a c' => (f a).Guarded c' Q := by
  change (t.bind f).Guarded c Q ↔ _
  induction t generalizing c with
  | ret a => exact Iff.rfl
  | onRandom k ih => exact forall_congr' fun m => ih m
  | onShared g k ih => exact forall_congr' fun s => ih s
  | onLock k ih => cases c <;> first | exact ih | exact Iff.rfl
  | onWriteAll bs k ih => cases c <;> first | exact ih true | exact Iff.rfl
  | onFlush k ih => cases c <;> first | exact forall_congr' fun ok => ih ok | exact Iff.rfl
  | onClose k ih => cases c <;> first | exact forall_congr' fun ok => ih ok | exact Iff.rfl
  | onUnlock k ih => cases c <;> first | exact ih | exact Iff.rfl

theorem Guarded.mono {t : Fiber σ α} {c : Option (List UInt8)}
    {Q Q' : α → Option (List UInt8) → Prop} (h : t.Guarded c Q) (hQ : ∀ a c', Q a c' → Q' a c') :
    t.Guarded c Q' := by
  induction t generalizing c with
  | ret a => exact hQ a c h
  | onRandom k ih => exact fun m => ih m (h m)
  | onShared g k ih => exact fun s => ih s (h s)
  | onLock k ih => cases c <;> first | exact ih h | exact h
  | onWriteAll bs k ih => cases c <;> first | exact ih true h | exact h
  | onFlush k ih => cases c <;> first | exact fun ok => ih ok (h ok) | exact h
  | onClose k ih => cases c <;> first | exact fun ok => ih ok (h ok) | exact h
  | onUnlock k ih => cases c <;> first | exact ih h | exact h

theorem Guarded.exists_traces {t : Fiber σ α} {c : Option (List UInt8)}
    {Q : α → Option (List UInt8) → Prop} (h : t.Guarded c Q) (s : σ) :
    ∃ secs a c', t.Traces c secs a c' ∧ Q a c' := by
  induction t generalizing c with
  | ret a => exact ⟨[], a, c, ⟨rfl, rfl, rfl⟩, h⟩
  | onRandom k ih =>
    obtain ⟨secs, a, c', h₁, h₂⟩ := ih 0 (h 0)
    exact ⟨secs, a, c', ⟨0, h₁⟩, h₂⟩
  | onShared g k ih =>
    obtain ⟨secs, a, c', h₁, h₂⟩ := ih s (h s)
    exact ⟨secs, a, c', ⟨s, h₁⟩, h₂⟩
  | onLock k ih => cases c <;> first | exact ih h | exact h.elim
  | onWriteAll bs k ih => cases c <;> first | exact ih true h | exact h.elim
  | onFlush k ih =>
    cases c with
    | none => exact h.elim
    | some c =>
      obtain ⟨secs, a, c', h₁, h₂⟩ := ih true (h true)
      exact ⟨secs, a, c', ⟨true, h₁⟩, h₂⟩
  | onClose k ih =>
    cases c with
    | none => exact h.elim
    | some c =>
      obtain ⟨secs, a, c', h₁, h₂⟩ := ih true (h true)
      exact ⟨secs, a, c', ⟨true, h₁⟩, h₂⟩
  | onUnlock k ih =>
    cases c with
    | none => exact h.elim
    | some c =>
      obtain ⟨secs, a, c', h₁, h₂⟩ := ih h
      exact ⟨c :: secs, a, c', ⟨secs, rfl, h₁⟩, h₂⟩

theorem Guarded.of_traces {t : Fiber σ α} {c c' : Option (List UInt8)}
    {Q : α → Option (List UInt8) → Prop} {secs : List (List UInt8)} {a : α} (h : t.Guarded c Q)
    (ht : t.Traces c secs a c') : Q a c' := by
  induction t generalizing c secs with
  | ret b =>
    obtain ⟨rfl, -, rfl⟩ := ht
    exact h
  | onRandom k ih =>
    obtain ⟨m, ht⟩ := ht
    exact ih m (h m) ht
  | onShared g k ih =>
    obtain ⟨s, ht⟩ := ht
    exact ih s (h s) ht
  | onLock k ih => cases c <;> first | exact ih h ht | exact h.elim
  | onWriteAll bs k ih => cases c <;> first | exact ih true h ht | exact h.elim
  | onFlush k ih =>
    obtain ⟨ok, ht⟩ := ht
    cases c <;> first | exact ih ok (h ok) ht | exact h.elim
  | onClose k ih =>
    obtain ⟨ok, ht⟩ := ht
    cases c <;> first | exact ih ok (h ok) ht | exact h.elim
  | onUnlock k ih =>
    cases c with
    | none => exact h.elim
    | some c =>
      obtain ⟨secs', rfl, ht⟩ := ht
      exact ih h ht

theorem Traces.exists_head {t : Fiber σ α} {d : List UInt8} {secs : List (List UInt8)} {a : α}
    (ht : t.Traces (some d) secs a none) : ∃ rest secs', secs = (d ++ rest) :: secs' := by
  induction t generalizing d secs with
  | ret b => exact nomatch ht.2.2
  | onRandom k ih =>
    obtain ⟨m, ht⟩ := ht
    exact ih m ht
  | onShared g k ih =>
    obtain ⟨s, ht⟩ := ht
    exact ih s ht
  | onLock k ih => exact ht.elim
  | onWriteAll bs k ih =>
    obtain ⟨rest, secs', rfl⟩ := ih true ht
    exact ⟨bs ++ rest, secs', by rw [List.append_assoc]⟩
  | onFlush k ih =>
    obtain ⟨ok, ht⟩ := ht
    exact ih ok ht
  | onClose k ih =>
    obtain ⟨ok, ht⟩ := ht
    exact ih ok ht
  | onUnlock k ih =>
    obtain ⟨secs', rfl, -⟩ := ht
    exact ⟨[], secs', by rw [List.append_nil]⟩

/-- The fiber keeps to the lock, and does not hold it before and after. -/
def Disciplined (t : Fiber σ α) : Prop := t.Guarded none fun _ c => c = none

theorem disciplined_locked (g : σ → β × σ) : (locked g).Disciplined := fun _ => rfl

theorem Disciplined.bind {t : Fiber σ α} {f : α → Fiber σ β} (ht : t.Disciplined)
    (hf : ∀ a, (f a).Disciplined) : (t >>= f).Disciplined :=
  guarded_bind.mpr (ht.mono fun a c h => by rw [h]; exact hf a)

theorem Disciplined.of_traces {t : Fiber σ α} {c' : Option (List UInt8)}
    {secs : List (List UInt8)} {a : α} (h : t.Disciplined) (ht : t.Traces none secs a c') :
    c' = none := by
  unfold Disciplined at h
  exact h.of_traces ht

/-- The fiber leaves the sink alone, and what it returns satisfies `P`. -/
def Quiet : Fiber σ α → (α → Prop) → Prop
  | ret a, P => P a
  | onRandom k, P => ∀ m, (k m).Quiet P
  | onShared _ k, P => ∀ s, (k s).Quiet P
  | _, _ => False

theorem quiet_bind {t : Fiber σ α} {f : α → Fiber σ β} {P : α → Prop} {Q : β → Prop}
    (ht : t.Quiet P) (hf : ∀ a, P a → (f a).Quiet Q) : (t >>= f).Quiet Q := by
  change (t.bind f).Quiet Q
  induction t with
  | ret a => exact hf a ht
  | onRandom k ih => exact fun m => ih m (ht m)
  | onShared g k ih => exact fun s => ih s (ht s)
  | _ => exact ht.elim

theorem Quiet.mono {t : Fiber σ α} {P Q : α → Prop} (h : t.Quiet P) (hQ : ∀ a, P a → Q a) :
    t.Quiet Q := by
  induction t with
  | ret a => exact hQ a h
  | onRandom k ih => exact fun m => ih m (h m)
  | onShared g k ih => exact fun s => ih s (h s)
  | _ => exact h.elim

theorem Quiet.disciplined {t : Fiber σ α} {P : α → Prop} (h : t.Quiet P) : t.Disciplined := by
  induction t with
  | ret a => rfl
  | onRandom k ih => exact fun m => ih m (h m)
  | onShared g k ih => exact fun s => ih s (h s)
  | _ => exact h.elim

theorem Quiet.traces {t : Fiber σ α} {P : α → Prop} (h : t.Quiet P)
    {c c' : Option (List UInt8)} {secs : List (List UInt8)} {a : α} (ht : t.Traces c secs a c') :
    secs = [] ∧ c' = c ∧ P a := by
  induction t with
  | ret b =>
    obtain ⟨rfl, rfl, rfl⟩ := ht
    exact ⟨rfl, rfl, h⟩
  | onRandom k ih =>
    obtain ⟨m, ht⟩ := ht
    exact ih m (h m) ht
  | onShared g k ih =>
    obtain ⟨s, ht⟩ := ht
    exact ih s (h s) ht
  | _ => exact h.elim

end Fiber

/-- Fibers `ι` that return values of the types `α`, the state they share and the sink. The sections
finished are kept in `done`, in the order in which the lock was acquired; `current` is the fiber
that holds the lock, and what it has written. -/
structure Race (ι : Type) (α : ι → Type) (σ : Type) where
  fibers : (i : ι) → Fiber σ (α i)
  shared : σ
  wire : List UInt8
  done : List (ι × List UInt8)
  current : Option (ι × List UInt8)

namespace Race

variable {ι σ : Type} [DecidableEq ι] {α : ι → Type}

/-- Before any fiber has begun. -/
def init (fibers : (i : ι) → Fiber σ (α i)) (shared : σ) : Race ι α σ :=
  ⟨fibers, shared, [], [], none⟩

/-- The next effect of the fiber `i` has been carried out; `t` is left. -/
def advance (st : Race ι α σ) (i : ι) (t : Fiber σ (α i)) : Race ι α σ :=
  { st with fibers := Function.update st.fibers i t }

/-- The fiber `i` has written `bs`. -/
def put (st : Race ι α σ) (i : ι) (bs : List UInt8) : Race ι α σ :=
  { st with
    wire := st.wire ++ bs
    current := st.current.map fun (j, c) => if j = i then (j, c ++ bs) else (j, c) }

/-- One fiber carries out its next effect, or part of a write. The lock is acquired when it is
free. -/
inductive Step (st : Race ι α σ) : Race ι α σ → Prop
  | random {i : ι} {k : UInt32 → Fiber σ (α i)} (m : UInt32) (h : st.fibers i = .onRandom k) :
      Step st (st.advance i (k m))
  | shared {i : ι} {f : σ → σ} {k : σ → Fiber σ (α i)} (h : st.fibers i = .onShared f k) :
      Step st { st.advance i (k st.shared) with shared := f st.shared }
  | lock {i : ι} {k : Fiber σ (α i)} (h : st.fibers i = .onLock k) (hfree : st.current = none) :
      Step st { st.advance i k with current := some (i, []) }
  | write {i : ι} (bs rest : List UInt8) {k : Bool → Fiber σ (α i)}
      (h : st.fibers i = .onWriteAll (bs ++ rest) k) :
      Step st ((st.put i bs).advance i (.onWriteAll rest k))
  | written {i : ι} {k : Bool → Fiber σ (α i)} (h : st.fibers i = .onWriteAll [] k) :
      Step st (st.advance i (k true))
  | flush {i : ι} {k : Bool → Fiber σ (α i)} (ok : Bool) (h : st.fibers i = .onFlush k) :
      Step st (st.advance i (k ok))
  | close {i : ι} {k : Bool → Fiber σ (α i)} (ok : Bool) (h : st.fibers i = .onClose k) :
      Step st (st.advance i (k ok))
  | unlock {i : ι} {k : Fiber σ (α i)} {c : List UInt8} (h : st.fibers i = .onUnlock k)
      (hc : st.current = some (i, c)) :
      Step st { st.advance i k with done := st.done ++ [(i, c)], current := none }

/-- What the fiber `i` has written in the section it is in. -/
def held (st : Race ι α σ) (i : ι) : Option (List UInt8) :=
  st.current.bind fun (j, c) => if j = i then some c else none

/-- The sections that the fiber `i` has finished. -/
def sections (st : Race ι α σ) (i : ι) : List (List UInt8) :=
  (st.done.filter fun x => x.1 = i).map Prod.snd

theorem mem_sections {st : Race ι α σ} {x : ι × List UInt8} (h : x ∈ st.done) :
    x.2 ∈ st.sections x.1 :=
  List.mem_map.mpr ⟨x, List.mem_filter.mpr ⟨h, decide_eq_true rfl⟩, rfl⟩

/-- What holds at every moment of a race of guarded fibers. -/
structure Inv (fibers : (i : ι) → Fiber σ (α i)) (st : Race ι α σ) : Prop where
  wire : st.wire = st.done.flatMap Prod.snd ++ (st.current.map Prod.snd).getD []
  guarded : ∀ i, (st.fibers i).Guarded (st.held i) fun _ c => c = none
  traces : ∀ i secs a, (st.fibers i).Traces (st.held i) secs a none →
    (fibers i).Traces none (st.sections i ++ secs) a none

section

variable {fibers : (i : ι) → Fiber σ (α i)} {st st' : Race ι α σ} {i : ι}

theorem held_of_current {c : List UInt8} (h : st.current = some (i, c)) : st.held i = some c := by
  rw [held, h]
  exact if_pos rfl

theorem held_of_ne {j : ι} {c : List UInt8} (h : st.current = some (i, c)) (hj : j ≠ i) :
    st.held j = none := by
  rw [held, h]
  exact if_neg (Ne.symm hj)

theorem current_of_held {c : List UInt8} (h : st.held i = some c) : st.current = some (i, c) := by
  rw [held] at h
  rcases hc : st.current with _ | ⟨j, c'⟩ <;> rw [hc] at h
  · cases h
  · change (if j = i then some c' else none) = some c at h
    split_ifs at h with hj
    cases h
    rw [hj]

theorem Inv.update (h : Inv fibers st) {t : Fiber σ (α i)} (new : List (List UInt8))
    (hf : st'.fibers = Function.update st.fibers i t)
    (hw : st'.wire = st'.done.flatMap Prod.snd ++ (st'.current.map Prod.snd).getD [])
    (hother : ∀ j, j ≠ i → st'.held j = st.held j ∧ st'.sections j = st.sections j)
    (hnew : st'.sections i = st.sections i ++ new)
    (hg : t.Guarded (st'.held i) fun _ c => c = none)
    (ht : ∀ secs a, t.Traces (st'.held i) secs a none →
      (st.fibers i).Traces (st.held i) (new ++ secs) a none) : Inv fibers st' where
  wire := hw
  guarded := by
    intro j
    by_cases hj : j = i
    · subst hj
      rw [hf, Function.update_self]
      exact hg
    · rw [hf, Function.update_of_ne hj, (hother j hj).1]
      exact h.guarded j
  traces := by
    intro j secs a htr
    by_cases hj : j = i
    · subst hj
      rw [hf, Function.update_self] at htr
      rw [hnew, List.append_assoc]
      exact h.traces j _ a (ht secs a htr)
    · rw [hf, Function.update_of_ne hj, (hother j hj).1] at htr
      rw [(hother j hj).2]
      exact h.traces j secs a htr

theorem Inv.advance (h : Inv fibers st) {t : Fiber σ (α i)} (shared : σ)
    (hg : t.Guarded (st.held i) fun _ c => c = none)
    (ht : ∀ secs a, t.Traces (st.held i) secs a none → (st.fibers i).Traces (st.held i) secs a none) :
    Inv fibers { st.advance i t with shared } :=
  h.update [] rfl h.wire (fun _ _ => ⟨rfl, rfl⟩) (List.append_nil _).symm hg ht

/-- **A step keeps the invariant.** -/
theorem Inv.step (h : Inv fibers st) (hs : st.Step st') : Inv fibers st' := by
  cases hs with
  | @random i k m hf =>
    have hg := h.guarded i
    rw [hf] at hg
    exact h.advance st.shared (hg m) fun secs a htr => by rw [hf]; exact ⟨m, htr⟩
  | @shared i f k hf =>
    have hg := h.guarded i
    rw [hf] at hg
    exact h.advance _ (hg st.shared) fun secs a htr => by rw [hf]; exact ⟨st.shared, htr⟩
  | @lock i k hf hfree =>
    have hnone : ∀ j, st.held j = none := fun j => by rw [held, hfree]; rfl
    have hg := h.guarded i
    rw [hf, hnone i] at hg
    have hcur : ({ st.advance i k with current := some (i, []) } : Race ι α σ).current =
      some (i, []) := rfl
    refine h.update [] rfl ?_ (fun j hj => ⟨?_, rfl⟩) (List.append_nil _).symm ?_ ?_
    · have hw := h.wire
      rw [hfree] at hw
      exact hw
    · rw [held_of_ne hcur hj, hnone j]
    · rw [held_of_current hcur]
      exact hg
    · intro secs a htr
      rw [held_of_current hcur] at htr
      rw [hf, hnone i]
      exact htr
  | @write i bs rest k hf =>
    have hg := h.guarded i
    rw [hf] at hg
    rcases hheld : st.held i with _ | c <;> rw [hheld] at hg
    · exact hg.elim
    have hcur := current_of_held hheld
    have hcur' : ((st.put i bs).advance i (.onWriteAll rest k)).current = some (i, c ++ bs) := by
      simp [Race.advance, put, hcur]
    refine h.update [] rfl ?_ (fun j hj => ⟨?_, rfl⟩) (List.append_nil _).symm ?_ ?_
    · rw [hcur']
      have hw := h.wire
      rw [hcur] at hw
      simp only [Race.advance, put, hw, Option.map_some, Option.getD_some, List.append_assoc]
    · rw [held_of_ne hcur' hj, held_of_ne hcur hj]
    · rw [held_of_current hcur']
      rw [Fiber.Guarded] at hg ⊢
      rwa [List.append_assoc]
    · intro secs a htr
      rw [held_of_current hcur'] at htr
      rw [hf, hheld]
      rw [Fiber.Traces] at htr
      rw [List.nil_append, Fiber.Traces, ← List.append_assoc]
      exact htr
  | @written i k hf =>
    have hg := h.guarded i
    rw [hf] at hg
    rcases hheld : st.held i with _ | c <;> rw [hheld] at hg
    · exact hg.elim
    rw [Fiber.Guarded, List.append_nil] at hg
    refine h.advance st.shared (by rw [hheld]; exact hg) fun secs a htr => ?_
    rw [hheld] at htr
    rw [hf, hheld, Fiber.Traces, List.append_nil]
    exact htr
  | @flush i k ok hf =>
    have hg := h.guarded i
    rw [hf] at hg
    rcases hheld : st.held i with _ | c <;> rw [hheld] at hg
    · exact hg.elim
    exact h.advance st.shared (by rw [hheld]; exact hg ok) fun secs a htr => by
      rw [hf]; exact ⟨ok, htr⟩
  | @close i k ok hf =>
    have hg := h.guarded i
    rw [hf] at hg
    rcases hheld : st.held i with _ | c <;> rw [hheld] at hg
    · exact hg.elim
    exact h.advance st.shared (by rw [hheld]; exact hg ok) fun secs a htr => by
      rw [hf]; exact ⟨ok, htr⟩
  | @unlock i k c hf hcur =>
    have hheld := held_of_current hcur
    have hg := h.guarded i
    rw [hf, hheld] at hg
    refine h.update [c] rfl ?_ (fun j hj => ⟨?_, ?_⟩) ?_ hg ?_
    · have hw := h.wire
      rw [hcur] at hw
      simp [Race.advance, hw]
    · rw [held_of_ne hcur hj]
      rfl
    · simp [sections, List.filter_append, Ne.symm hj]
    · simp [sections, List.filter_append]
    · intro secs a htr
      rw [hf, hheld]
      exact ⟨secs, rfl, htr⟩

/-- **Every moment of a race.** At every state that disciplined fibers reach, the sink holds the
sections one after the other, all of them finished but that of the holder of the lock. -/
theorem reachable (hg : ∀ i, (fibers i).Disciplined) {shared : σ}
    (h : Relation.ReflTransGen Step (init fibers shared) st) : Inv fibers st := by
  induction h with
  | refl => exact ⟨rfl, hg, fun i secs a htr => htr⟩
  | tail _ hs ih => exact ih.step hs

/-- **The sections of a fiber**, followed by others, are those of a complete run of the fiber. The
first of the others begins with what the fiber has written in the section it is in; when the fiber
has returned, there are no others. -/
theorem Inv.exists_traces (h : Inv fibers st) (i : ι) :
    ∃ secs a, (fibers i).Traces none (st.sections i ++ secs) a none ∧
      (∀ c, st.current = some (i, c) → ∃ rest secs', secs = (c ++ rest) :: secs') ∧
      ∀ b, st.fibers i = .ret b → secs = [] ∧ a = b := by
  obtain ⟨secs, a, c, htr, rfl⟩ := (h.guarded i).exists_traces st.shared
  refine ⟨secs, a, h.traces i secs a htr, fun c hc => ?_, fun b hb => ?_⟩
  · rw [held_of_current hc] at htr
    exact htr.exists_head
  · rw [hb] at htr
    exact ⟨htr.2.1, htr.1.symm⟩

end

end Race
