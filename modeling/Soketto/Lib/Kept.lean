import Soketto.Lib.Fuse

/-!
# An invariant of the state that fibers share

When every fiber of a race keeps `P` true of the shared state, no fiber ever sees a state of which
`P` is false. The fibers then run as if they looked at the state through a function that maps all
states to states with `P` and leaves these alone.

* `Fiber.Keeps`, **`keeps_bind`**; `Fiber.Unshared`: the fiber leaves the shared state alone.
* `Fiber.Once`: the fiber looks at it no more than once; **`Once.yields`**.
* `Fiber.within g`: the fiber that sees `g s` for a state `s`; **`within_bind`**.
* **`Fuse.reachable_within`**: fibers that keep `P` reach the same moments within `g`.
-/

set_option autoImplicit false

namespace Fiber

variable {σ α β : Type} {P : σ → Prop} {g : σ → σ}

/-- Each update of a shared state with `P` leaves one with `P`. -/
def Keeps (P : σ → Prop) : Fiber σ α → Prop
  | ret _ => True
  | onRandom k => ∀ m, (k m).Keeps P
  | onShared f k => ∀ s, P s → P (f s) ∧ (k s).Keeps P
  | onLock k => k.Keeps P
  | onWriteAll _ k => ∀ ok, (k ok).Keeps P
  | onFlush k => ∀ ok, (k ok).Keeps P
  | onClose k => ∀ ok, (k ok).Keeps P
  | onUnlock k => k.Keeps P

/-- **A bind keeps** what its parts keep. -/
theorem keeps_bind {t : Fiber σ α} {f : α → Fiber σ β} (ht : t.Keeps P) (hf : ∀ a, (f a).Keeps P) :
    (t >>= f).Keeps P := by
  change (t.bind f).Keeps P
  induction t with
  | ret a => exact hf a
  | onShared u k ih => exact fun s hs => ⟨(ht s hs).1, ih s (ht s hs).2⟩
  | onLock k ih => exact ih ht
  | onUnlock k ih => exact ih ht
  | onRandom k ih => exact fun m => ih m (ht m)
  | onWriteAll bs k ih => exact fun ok => ih ok (ht ok)
  | onFlush k ih => exact fun ok => ih ok (ht ok)
  | onClose k ih => exact fun ok => ih ok (ht ok)

theorem keeps_locked {u : σ → β × σ} (h : ∀ s, P s → P (u s).2) : (locked u).Keeps P :=
  fun s hs => ⟨h s hs, trivial⟩

/-- The shared state is neither read nor updated. -/
def Unshared : Fiber σ α → Prop
  | ret _ => True
  | onRandom k => ∀ m, (k m).Unshared
  | onShared _ _ => False
  | onLock k => k.Unshared
  | onWriteAll _ k => ∀ ok, (k ok).Unshared
  | onFlush k => ∀ ok, (k ok).Unshared
  | onClose k => ∀ ok, (k ok).Unshared
  | onUnlock k => k.Unshared

theorem unshared_bind {t : Fiber σ α} {f : α → Fiber σ β} (ht : t.Unshared)
    (hf : ∀ a, (f a).Unshared) : (t >>= f).Unshared := by
  change (t.bind f).Unshared
  induction t with
  | ret a => exact hf a
  | onShared u k ih => exact ht.elim
  | onLock k ih => exact ih ht
  | onUnlock k ih => exact ih ht
  | onRandom k ih => exact fun m => ih m (ht m)
  | onWriteAll bs k ih => exact fun ok => ih ok (ht ok)
  | onFlush k ih => exact fun ok => ih ok (ht ok)
  | onClose k ih => exact fun ok => ih ok (ht ok)

/-- The shared state is looked at no more than once. -/
def Once : Fiber σ α → Prop
  | ret _ => True
  | onRandom k => ∀ m, (k m).Once
  | onShared _ k => ∀ s, (k s).Unshared
  | onLock k => k.Once
  | onWriteAll _ k => ∀ ok, (k ok).Once
  | onFlush k => ∀ ok, (k ok).Once
  | onClose k => ∀ ok, (k ok).Once
  | onUnlock k => k.Once

theorem Unshared.once {t : Fiber σ α} (h : t.Unshared) : t.Once := by
  induction t with
  | ret a => trivial
  | onShared u k ih => exact h.elim
  | onLock k ih => exact ih h
  | onUnlock k ih => exact ih h
  | onRandom k ih => exact fun m => ih m (h m)
  | onWriteAll bs k ih => exact fun ok => ih ok (h ok)
  | onFlush k ih => exact fun ok => ih ok (h ok)
  | onClose k ih => exact fun ok => ih ok (h ok)

theorem Once.bind {t : Fiber σ α} {f : α → Fiber σ β} (ht : t.Once) (hf : ∀ a, (f a).Unshared) :
    (t >>= f).Once := by
  change (t.bind f).Once
  induction t with
  | ret a => exact (hf a).once
  | onShared u k ih => exact fun s => unshared_bind (ht s) hf
  | onLock k ih => exact ih ht
  | onUnlock k ih => exact ih ht
  | onRandom k ih => exact fun m => ih m (ht m)
  | onWriteAll bs k ih => exact fun ok => ih ok (ht ok)
  | onFlush k ih => exact fun ok => ih ok (ht ok)
  | onClose k ih => exact fun ok => ih ok (ht ok)

theorem Unshared.yields {t : Fiber σ α} (h : t.Unshared) {a : α} (hr : t.Returns a) (s : σ) :
    t.Yields s a s := by
  induction t with
  | ret b => exact ⟨hr, rfl⟩
  | onShared u k ih => exact h.elim
  | onLock k ih => exact ih h hr
  | onUnlock k ih => exact ih h hr
  | onRandom k ih =>
    obtain ⟨m, hr⟩ := hr
    exact ⟨m, ih m (h m) hr⟩
  | onWriteAll bs k ih =>
    obtain ⟨ok, hr⟩ := hr
    exact ⟨ok, ih ok (h ok) hr⟩
  | onFlush k ih =>
    obtain ⟨ok, hr⟩ := hr
    exact ⟨ok, ih ok (h ok) hr⟩
  | onClose k ih =>
    obtain ⟨ok, hr⟩ := hr
    exact ⟨ok, ih ok (h ok) hr⟩

/-- A fiber that looks at the shared state once returns nothing in a race that it does not return
alone. -/
theorem Once.yields {t : Fiber σ α} (h : t.Once) (s₀ : σ) {a : α} (hr : t.Returns a) :
    ∃ s s', t.Yields s a s' := by
  induction t with
  | ret b => exact ⟨s₀, s₀, hr, rfl⟩
  | onShared u k ih =>
    obtain ⟨s, hr⟩ := hr
    exact ⟨s, u s, (h s).yields hr _⟩
  | onLock k ih => exact ih h hr
  | onUnlock k ih => exact ih h hr
  | onRandom k ih =>
    obtain ⟨m, hr⟩ := hr
    obtain ⟨s, s', hy⟩ := ih m (h m) hr
    exact ⟨s, s', m, hy⟩
  | onWriteAll bs k ih =>
    obtain ⟨ok, hr⟩ := hr
    obtain ⟨s, s', hy⟩ := ih ok (h ok) hr
    exact ⟨s, s', ok, hy⟩
  | onFlush k ih =>
    obtain ⟨ok, hr⟩ := hr
    obtain ⟨s, s', hy⟩ := ih ok (h ok) hr
    exact ⟨s, s', ok, hy⟩
  | onClose k ih =>
    obtain ⟨ok, hr⟩ := hr
    obtain ⟨s, s', hy⟩ := ih ok (h ok) hr
    exact ⟨s, s', ok, hy⟩

theorem Unshared.keeps {t : Fiber σ α} (h : t.Unshared) : t.Keeps P := by
  induction t with
  | ret a => trivial
  | onShared u k ih => exact h.elim
  | onLock k ih => exact ih h
  | onUnlock k ih => exact ih h
  | onRandom k ih => exact fun m => ih m (h m)
  | onWriteAll bs k ih => exact fun ok => ih ok (h ok)
  | onFlush k ih => exact fun ok => ih ok (h ok)
  | onClose k ih => exact fun ok => ih ok (h ok)

/-- The fiber that sees `g s` when the shared state is `s`. -/
def within (g : σ → σ) : Fiber σ α → Fiber σ α
  | ret a => ret a
  | onRandom k => onRandom fun m => (k m).within g
  | onShared f k => onShared f fun s => (k (g s)).within g
  | onLock k => onLock (k.within g)
  | onWriteAll bs k => onWriteAll bs fun ok => (k ok).within g
  | onFlush k => onFlush fun ok => (k ok).within g
  | onClose k => onClose fun ok => (k ok).within g
  | onUnlock k => onUnlock (k.within g)

@[simp] theorem within_pure (g : σ → σ) (a : α) : (pure a : Fiber σ α).within g = pure a := rfl

@[simp] theorem within_bind (g : σ → σ) (t : Fiber σ α) (f : α → Fiber σ β) :
    (t >>= f).within g = t.within g >>= fun a => (f a).within g := by
  change (t.bind f).within g = (t.within g).bind fun a => (f a).within g
  induction t with
  | ret a => rfl
  | onShared u k ih => exact congrArg (onShared u) (funext fun s => ih (g s))
  | onLock k ih => exact congrArg onLock ih
  | onUnlock k ih => exact congrArg onUnlock ih
  | onRandom k ih => exact congrArg onRandom (funext ih)
  | onWriteAll bs k ih => exact congrArg (onWriteAll bs) (funext ih)
  | onFlush k ih => exact congrArg onFlush (funext ih)
  | onClose k ih => exact congrArg onClose (funext ih)

theorem Guarded.within {t : Fiber σ α} {c : Option (List UInt8)}
    {Q : α → Option (List UInt8) → Prop} (h : t.Guarded c Q) (g : σ → σ) :
    (t.within g).Guarded c Q := by
  induction t generalizing c with
  | ret a => exact h
  | onRandom k ih => exact fun m => ih m (h m)
  | onShared u k ih => exact fun s => ih (g s) (h (g s))
  | onLock k ih => cases c <;> first | exact ih h | exact h.elim
  | onWriteAll bs k ih => cases c <;> first | exact ih true h | exact h.elim
  | onFlush k ih => cases c <;> first | exact fun ok => ih ok (h ok) | exact h.elim
  | onClose k ih => cases c <;> first | exact fun ok => ih ok (h ok) | exact h.elim
  | onUnlock k ih => cases c <;> first | exact ih h | exact h.elim

theorem Disciplined.within {t : Fiber σ α} (h : t.Disciplined) (g : σ → σ) :
    (t.within g).Disciplined := by
  unfold Disciplined at *
  exact h.within g

theorem Traces.of_within {t : Fiber σ α} {c c' : Option (List UInt8)} {secs : List (List UInt8)}
    {a : α} (h : (t.within g).Traces c secs a c') : t.Traces c secs a c' := by
  induction t generalizing c secs with
  | ret b => exact h
  | onRandom k ih =>
    obtain ⟨m, h⟩ := h
    exact ⟨m, ih m h⟩
  | onShared u k ih =>
    obtain ⟨s, h⟩ := h
    exact ⟨g s, ih (g s) h⟩
  | onLock k ih => cases c <;> first | exact ih h | exact h.elim
  | onWriteAll bs k ih => cases c <;> first | exact ih true h | exact h.elim
  | onFlush k ih =>
    obtain ⟨ok, h⟩ := h
    exact ⟨ok, ih ok h⟩
  | onClose k ih =>
    obtain ⟨ok, h⟩ := h
    exact ⟨ok, ih ok h⟩
  | onUnlock k ih =>
    cases c with
    | none => exact h.elim
    | some c =>
      obtain ⟨secs', rfl, h⟩ := h
      exact ⟨secs', rfl, ih h⟩

@[simp] theorem traces_within_locked {u : σ → β × σ} {c c' : Option (List UInt8)}
    {secs : List (List UInt8)} {b : β} :
    ((locked u).within g).Traces c secs b c' ↔ (∃ s, (u (g s)).1 = b) ∧ secs = [] ∧ c' = c :=
  ⟨fun ⟨s, hb, hs, hc⟩ => ⟨⟨s, hb⟩, hs, hc⟩, fun ⟨⟨s, hb⟩, hs, hc⟩ => ⟨s, hb, hs, hc⟩⟩

theorem exists_within {s₀ : σ} (h : P s₀) : ∃ g : σ → σ, (∀ s, P (g s)) ∧ ∀ s, P s → g s = s := by
  classical
  refine ⟨fun s => if P s then s else s₀, fun s => ?_, fun s hs => if_pos hs⟩
  dsimp only
  split_ifs with hs
  · exact hs
  · exact h

end Fiber

namespace Race

variable {ι σ : Type} [DecidableEq ι] {α : ι → Type} {P : σ → Prop} {g : σ → σ}

omit [DecidableEq ι] in
/-- `P` is true of the shared state, and the fibers keep it. -/
structure Kept (P : σ → Prop) (st : Race ι α σ) : Prop where
  shared : P st.shared
  fibers : ∀ i, (st.fibers i).Keeps P

/-- The fibers see the shared state through `g`. -/
def within (g : σ → σ) (st : Race ι α σ) : Race ι α σ :=
  { st with fibers := fun i => (st.fibers i).within g }

variable {st st' : Race ι α σ} {i : ι} {t : Fiber σ (α i)}

omit [DecidableEq ι] in
theorem Kept.fiber (h : st.Kept P) (hf : st.fibers i = t) : t.Keeps P := hf ▸ h.fibers i

theorem Kept.advance (h : st.Kept P) (ht : t.Keeps P) : (st.advance i t).Kept P where
  shared := h.shared
  fibers j := by
    by_cases hj : j = i
    · subst hj
      simp only [Race.advance, Function.update_self]
      exact ht
    · simp only [Race.advance, Function.update_of_ne hj]
      exact h.fibers j

omit [DecidableEq ι] in
theorem fibers_within (hf : st.fibers i = t) : (st.within g).fibers i = t.within g :=
  congrArg (Fiber.within g) hf

theorem within_advance (i : ι) (t : Fiber σ (α i)) :
    (st.advance i t).within g = (st.within g).advance i (t.within g) := by
  have hf : (fun j => (Function.update st.fibers i t j).within g) =
      Function.update (fun j => (st.fibers j).within g) i (t.within g) := by
    funext j
    by_cases hj : j = i
    · subst hj
      simp
    · simp [Function.update_of_ne hj]
  simp only [within, advance, hf]

/-- **A step keeps the invariant**, and it is a step within `g`. -/
theorem Kept.step (h : st.Kept P) (hg : ∀ s, P s → g s = s) (hs : st.Step st') :
    st'.Kept P ∧ (st.within g).Step (st'.within g) := by
  cases hs with
  | random m hf =>
    refine ⟨h.advance (h.fiber hf m), ?_⟩
    rw [within_advance]
    exact .random m (fibers_within hf)
  | @shared i f k hf =>
    obtain ⟨hf', hk⟩ := h.fiber hf _ h.shared
    refine ⟨⟨hf', (h.advance hk).fibers⟩, ?_⟩
    have hstep : (st.within g).Step _ := .shared (fibers_within hf)
    have hsame : (st.within g).shared = st.shared := rfl
    rw [hsame, hg _ h.shared, ← within_advance] at hstep
    exact hstep
  | @lock i k hf hfree =>
    have hk : k.onLock.Keeps P := h.fiber hf
    refine ⟨⟨h.shared, (h.advance (t := k) hk).fibers⟩, ?_⟩
    have hstep : (st.within g).Step _ := .lock (fibers_within hf) hfree
    rw [← within_advance] at hstep
    exact hstep
  | @write i bs rest k hf =>
    have hk : (Fiber.onWriteAll (bs ++ rest) k : Fiber σ (α i)).Keeps P := h.fiber hf
    have hrest : (Fiber.onWriteAll rest k : Fiber σ (α i)).Keeps P := hk
    refine ⟨⟨h.shared, (h.advance hrest).fibers⟩, ?_⟩
    rw [within_advance]
    exact .write bs rest (fibers_within hf)
  | written hf =>
    refine ⟨h.advance (h.fiber hf true), ?_⟩
    rw [within_advance]
    exact .written (fibers_within hf)
  | flush ok hf =>
    refine ⟨h.advance (h.fiber hf ok), ?_⟩
    rw [within_advance]
    exact .flush ok (fibers_within hf)
  | close ok hf =>
    refine ⟨h.advance (h.fiber hf ok), ?_⟩
    rw [within_advance]
    exact .close ok (fibers_within hf)
  | @unlock i k c hf hc =>
    have hk : k.onUnlock.Keeps P := h.fiber hf
    refine ⟨⟨h.shared, (h.advance (t := k) hk).fibers⟩, ?_⟩
    have hstep : (st.within g).Step _ := .unlock (fibers_within hf) hc
    rw [← within_advance] at hstep
    exact hstep

end Race

namespace Fuse

variable {ι σ : Type} [DecidableEq ι] {α : ι → Type} {P : σ → Prop} {g : σ → σ}

/-- The fibers see the shared state through `g`. -/
def within (g : σ → σ) (st : Fuse ι α σ) : Fuse ι α σ := { st with toRace := st.toRace.within g }

variable {st st' : Fuse ι α σ}

theorem within_advance (i : ι) (t : Fiber σ (α i)) :
    (st.advance i t).within g = (st.within g).advance i (t.within g) := by
  simp only [within, advance, Race.within_advance]

theorem kept_step (h : st.toRace.Kept P) (hg : ∀ s, P s → g s = s) (hs : st.Step st') :
    st'.toRace.Kept P ∧ (st.within g).Step (st'.within g) := by
  have hw : ∀ {i : ι} {t : Fiber σ (α i)}, st.fibers i = t → (st.within g).fibers i = t.within g :=
    fun hf => Race.fibers_within hf
  cases hs with
  | whole hb hstep =>
    obtain ⟨h₁, h₂⟩ := h.step hg hstep
    exact ⟨h₁, .whole hb h₂⟩
  | breaks => exact ⟨h, .breaks⟩
  | random m hb hf =>
    have hstep : (st.within g).Step _ := .random m hb (hw hf)
    rw [← within_advance] at hstep
    exact ⟨h.advance (h.fiber hf m), hstep⟩
  | @shared i f k hb hf =>
    obtain ⟨hf', hk⟩ := h.fiber hf _ h.shared
    have hstep : (st.within g).Step _ := .shared hb (hw hf)
    have hsame : (st.within g).shared = st.shared := rfl
    rw [hsame, hg _ h.shared, ← within_advance] at hstep
    exact ⟨⟨hf', (h.advance hk).fibers⟩, hstep⟩
  | @lock i k hb hf hfree =>
    have hk : k.onLock.Keeps P := h.fiber hf
    have hstep : (st.within g).Step _ := .lock hb (hw hf) hfree
    rw [← within_advance] at hstep
    exact ⟨⟨h.shared, (h.advance (t := k) hk).fibers⟩, hstep⟩
  | rejected hb hf =>
    have hstep : (st.within g).Step _ := .rejected hb (hw hf)
    rw [← within_advance] at hstep
    exact ⟨h.advance (h.fiber hf false), hstep⟩
  | flush ok hb hf =>
    have hstep : (st.within g).Step _ := .flush ok hb (hw hf)
    rw [← within_advance] at hstep
    exact ⟨h.advance (h.fiber hf ok), hstep⟩
  | close ok hb hf =>
    have hstep : (st.within g).Step _ := .close ok hb (hw hf)
    rw [← within_advance] at hstep
    exact ⟨h.advance (h.fiber hf ok), hstep⟩
  | @unlock i k c hb hf hc =>
    have hk : k.onUnlock.Keeps P := h.fiber hf
    have hstep : (st.within g).Step _ := .unlock hb (hw hf) hc
    rw [← within_advance] at hstep
    exact ⟨⟨h.shared, (h.advance (t := k) hk).fibers⟩, hstep⟩

/-- **Fibers that keep `P` reach the same moments within `g`.** -/
theorem reachable_within {fibers : (i : ι) → Fiber σ (α i)} {shared : σ}
    (hk : ∀ i, (fibers i).Keeps P) (hs : P shared) (hg : ∀ s, P s → g s = s)
    (h : Relation.ReflTransGen Step (init fibers shared) st) :
    st.toRace.Kept P ∧
      Relation.ReflTransGen Step (init (fun i => (fibers i).within g) shared) (st.within g) := by
  induction h with
  | refl => exact ⟨⟨hs, hk⟩, .refl⟩
  | tail _ hstep ih =>
    obtain ⟨h₁, h₂⟩ := kept_step ih.1 hg hstep
    exact ⟨h₁, ih.2.tail h₂⟩

end Fuse
