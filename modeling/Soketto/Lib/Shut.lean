import Mathlib.Data.List.Pairwise
import Soketto.Lib.Race

/-!
# Fibers that race for a sink and close it

The fibers of a race share a sink that can be closed; a closed sink takes no more bytes. Some
sections are the last ones: a fiber that has finished one is to close the sink.

* `Sink`: the fibers with the sink, and whether it is closed; `Sink.Act`, `Sink.Step`: the effects.
* `Fiber.Orderly`: after a last section, the fiber flushes and closes the sink and does nothing else
  to it, as long as it is told that this succeeded; **`orderly_bind`**.
* `Sink.Calm`: between a last section and the closing of the sink, no other fiber acquires the lock,
  and flushing and closing succeed.
* **`Sink.calm_reachable`**: nothing is written after a last section, in any calm run.
-/

set_option autoImplicit false

/-- Where a fiber stands with the sink: it is in no section, it has written `c` in the section it is
in, or it is to close the sink and holds the lock or not. -/
inductive Fiber.Phase where
  | idle
  | writing (c : List UInt8)
  | ending (locked : Bool)

namespace Fiber

variable {σ α β : Type}

/-- From the given phase on, the fiber finishes sections that satisfy `P`, or are empty, and closes
the sink after a section that satisfies `last`. What it returns satisfies `Q`, as long as the sink
is not closed. -/
def Orderly (P : List UInt8 → Prop) (last : List UInt8 → Bool) :
    Fiber σ α → Phase → (α → Phase → Prop) → Prop
  | ret a, ph, Q => Q a ph
  | onRandom k, ph, Q => ∀ m, (k m).Orderly P last ph Q
  | onShared _ k, ph, Q => ∀ s, (k s).Orderly P last ph Q
  | onLock k, .idle, Q => k.Orderly P last (.writing []) Q
  | onLock k, .ending false, Q => k.Orderly P last (.ending true) Q
  | onWriteAll bs k, .writing c, Q => (k true).Orderly P last (.writing (c ++ bs)) Q
  | onFlush k, .writing c, Q => ∀ ok, (k ok).Orderly P last (.writing c) Q
  | onFlush k, .ending true, Q => (k true).Orderly P last (.ending true) Q
  | onClose _, .ending true, _ => True
  | onUnlock k, .writing c, Q =>
    (c ≠ [] → P c) ∧ k.Orderly P last (if last c then .ending false else .idle) Q
  | onUnlock k, .ending true, Q => k.Orderly P last (.ending false) Q
  | _, _, _ => False

variable {P : List UInt8 → Prop} {last : List UInt8 → Bool}

/-- **A bind is orderly** if its parts are. -/
theorem orderly_bind {t : Fiber σ α} {f : α → Fiber σ β} {ph : Phase} {Q : β → Phase → Prop}
    (h : t.Orderly P last ph fun a ph' => (f a).Orderly P last ph' Q) :
    (t >>= f).Orderly P last ph Q := by
  change (t.bind f).Orderly P last ph Q
  induction t generalizing ph with
  | ret a => exact h
  | onRandom k ih => exact fun m => ih m (h m)
  | onShared g k ih => exact fun s => ih s (h s)
  | onLock k ih =>
    rcases ph with _ | c | _ | _ <;> first | exact ih h | exact h.elim
  | onWriteAll bs k ih =>
    rcases ph with _ | c | _ | _ <;> first | exact ih true h | exact h.elim
  | onFlush k ih =>
    rcases ph with _ | c | _ | _ <;>
      first | exact fun ok => ih ok (h ok) | exact ih true h | exact h.elim
  | onClose k ih =>
    rcases ph with _ | c | _ | _ <;> exact h
  | onUnlock k ih =>
    rcases ph with _ | c | _ | _ <;> first | exact ⟨h.1, ih h.2⟩ | exact ih h | exact h.elim

theorem Orderly.mono {t : Fiber σ α} {ph : Phase} {Q Q' : α → Phase → Prop}
    (h : t.Orderly P last ph Q) (hQ : ∀ a ph', Q a ph' → Q' a ph') : t.Orderly P last ph Q' := by
  induction t generalizing ph with
  | ret a => exact hQ a ph h
  | onRandom k ih => exact fun m => ih m (h m)
  | onShared g k ih => exact fun s => ih s (h s)
  | onLock k ih =>
    rcases ph with _ | c | _ | _ <;> first | exact ih h | exact h.elim
  | onWriteAll bs k ih =>
    rcases ph with _ | c | _ | _ <;> first | exact ih true h | exact h.elim
  | onFlush k ih =>
    rcases ph with _ | c | _ | _ <;>
      first | exact fun ok => ih ok (h ok) | exact ih true h | exact h.elim
  | onClose k ih =>
    rcases ph with _ | c | _ | _ <;> exact h
  | onUnlock k ih =>
    rcases ph with _ | c | _ | _ <;> first | exact ⟨h.1, ih h.2⟩ | exact ih h | exact h.elim

theorem Quiet.orderly {t : Fiber σ α} {p : α → Prop} (h : t.Quiet p) (ph : Phase) :
    t.Orderly P last ph fun a ph' => ph' = ph ∧ p a := by
  induction t with
  | ret a => exact ⟨rfl, h⟩
  | onRandom k ih => exact fun m => ih m (h m)
  | onShared g k ih => exact fun s => ih s (h s)
  | _ => exact h.elim

/-- The fiber is orderly from the time it is in no section on, until it is in no section. -/
def Ordered (P : List UInt8 → Prop) (last : List UInt8 → Bool) (t : Fiber σ α) : Prop :=
  t.Orderly P last .idle fun _ ph => ph = .idle

theorem Ordered.bind {t : Fiber σ α} {f : α → Fiber σ β} (ht : t.Ordered P last)
    (hf : ∀ a, (f a).Ordered P last) : (t >>= f).Ordered P last :=
  orderly_bind (ht.mono fun a ph h => by rw [h]; exact hf a)

end Fiber

/-- A race for a sink that may have been closed. -/
structure Sink (ι : Type) (α : ι → Type) (σ : Type) extends Race ι α σ where
  closed : Bool

namespace Sink

variable {ι σ : Type} [DecidableEq ι] {α : ι → Type}

/-- Before any fiber has begun. -/
def init (fibers : (i : ι) → Fiber σ (α i)) (shared : σ) : Sink ι α σ :=
  ⟨.init fibers shared, false⟩

/-- The next effect of the fiber `i` has been carried out; `t` is left. -/
def advance (st : Sink ι α σ) (i : ι) (t : Fiber σ (α i)) : Sink ι α σ :=
  { st with toRace := st.toRace.advance i t }

/-- What a step does with the sink besides writing, and the fiber that does it. -/
inductive Act (ι : Type) where
  | lock (i : ι)
  | flush (i : ι) (ok : Bool)
  | close (i : ι) (ok : Bool)
  | other

/-- One fiber carries out its next effect, or part of a write. A closed sink rejects writes; whether
flushing and closing succeed is open. -/
inductive Step (st : Sink ι α σ) : Act ι → Sink ι α σ → Prop
  | random {i : ι} {k : UInt32 → Fiber σ (α i)} (m : UInt32) (h : st.fibers i = .onRandom k) :
      Step st .other (st.advance i (k m))
  | shared {i : ι} {f : σ → σ} {k : σ → Fiber σ (α i)} (h : st.fibers i = .onShared f k) :
      Step st .other { st.advance i (k st.shared) with shared := f st.shared }
  | lock {i : ι} {k : Fiber σ (α i)} (h : st.fibers i = .onLock k) (hfree : st.current = none) :
      Step st (.lock i) { st.advance i k with current := some (i, []) }
  | write {i : ι} (bs rest : List UInt8) {k : Bool → Fiber σ (α i)} (hopen : st.closed = false)
      (h : st.fibers i = .onWriteAll (bs ++ rest) k) :
      Step st .other { st with toRace := (st.toRace.put i bs).advance i (.onWriteAll rest k) }
  | written {i : ι} {k : Bool → Fiber σ (α i)} (hopen : st.closed = false)
      (h : st.fibers i = .onWriteAll [] k) : Step st .other (st.advance i (k true))
  | rejected {i : ι} {bs : List UInt8} {k : Bool → Fiber σ (α i)} (hclosed : st.closed = true)
      (h : st.fibers i = .onWriteAll bs k) : Step st .other (st.advance i (k false))
  | flush {i : ι} {k : Bool → Fiber σ (α i)} (ok : Bool) (h : st.fibers i = .onFlush k) :
      Step st (.flush i ok) (st.advance i (k ok))
  | close {i : ι} {k : Bool → Fiber σ (α i)} (ok : Bool) (h : st.fibers i = .onClose k) :
      Step st (.close i ok) { st.advance i (k ok) with closed := st.closed || ok }
  | unlock {i : ι} {k : Fiber σ (α i)} {c : List UInt8} (h : st.fibers i = .onUnlock k)
      (hc : st.current = some (i, c)) :
      Step st .other { st.advance i k with done := st.done ++ [(i, c)], current := none }

/-- The fiber that was the first to finish a last section. -/
def closing (last : List UInt8 → Bool) (st : Sink ι α σ) : Option ι :=
  (st.done.find? fun x => last x.2).map Prod.fst

/-- While a fiber is to close the sink, no other acquires the lock, and flushing and closing
succeed. -/
def Calm (last : List UInt8 → Bool) (st : Sink ι α σ) (a : Act ι) : Prop :=
  st.closed = false → ∀ i, st.closing last = some i →
    match a with
    | .lock j => j = i
    | .flush _ ok => ok = true
    | .close _ ok => ok = true
    | .other => True

/-- A step that is calm. -/
def CalmStep (last : List UInt8 → Bool) (st st' : Sink ι α σ) : Prop :=
  ∃ a, st.Step a st' ∧ st.Calm last a

/-- Where the fiber `i` stands with the sink. -/
def phase (last : List UInt8 → Bool) (st : Sink ι α σ) (i : ι) : Fiber.Phase :=
  if st.closing last = some i then .ending (st.held i).isSome
  else ((st.held i).map .writing).getD .idle

/-- What holds at every moment of a calm run of orderly fibers. -/
structure Inv (P : List UInt8 → Prop) (last : List UInt8 → Bool) (st : Sink ι α σ) : Prop where
  wire : st.wire = st.done.flatMap Prod.snd ++ (st.current.map Prod.snd).getD []
  sections : ∀ x ∈ st.done, x.2 ≠ [] → P x.2
  /-- Nothing is written in a section that follows a last one. -/
  pairwise : st.done.Pairwise fun x y => last x.2 = true → y.2 = []
  /-- Nothing is written in the section that the lock is held in, after a last one. -/
  quiet : ∀ i, st.closing last = some i → ∀ x ∈ st.current, x.2 = []
  closed : st.closed = true → ∃ i, st.closing last = some i
  orderly : st.closed = false → ∀ i,
    (st.fibers i).Orderly P last (st.phase last i) fun _ ph => ph = .idle
  holder : st.closed = false → ∀ i, st.closing last = some i → ∀ x ∈ st.current, x.1 = i

section

variable {P : List UInt8 → Prop} {last : List UInt8 → Bool} {st st' : Sink ι α σ} {i : ι}

theorem phase_of_closing (h : st.closing last = some i) :
    st.phase last i = .ending (st.held i).isSome := if_pos h

theorem phase_of_ne (h : st.closing last ≠ some i) :
    st.phase last i = ((st.held i).map .writing).getD .idle := if_neg h

theorem Inv.of_writing (h : Inv P last st) (hopen : st.closed = false) {c : List UInt8}
    (hph : st.phase last i = .writing c) :
    st.current = some (i, c) ∧ st.closing last = none := by
  have hne : st.closing last ≠ some i := fun hi => by
    rw [phase_of_closing hi] at hph
    cases hph
  rw [phase_of_ne hne] at hph
  rcases hheld : st.held i with _ | d <;> rw [hheld] at hph
  · cases hph
  cases hph
  have hcur := Race.current_of_held hheld
  refine ⟨hcur, ?_⟩
  rcases hcl : st.closing last with _ | j
  · rfl
  · have hij : i = j := h.holder hopen j hcl (i, c) hcur
    rw [hij] at hne
    exact absurd hcl hne

theorem closing_of_ending {b : Bool} (hph : st.phase last i = .ending b) :
    st.closing last = some i ∧ (st.held i).isSome = b := by
  by_cases hi : st.closing last = some i
  · rw [phase_of_closing hi] at hph
    cases hph
    exact ⟨hi, rfl⟩
  · rw [phase_of_ne hi] at hph
    rcases hheld : st.held i with _ | d <;> rw [hheld] at hph <;> cases hph

theorem Inv.advance (h : Inv P last st) {t : Fiber σ (α i)} (shared : σ)
    (ht : st.closed = false → t.Orderly P last (st.phase last i) fun _ ph => ph = .idle) :
    Inv P last { st.advance i t with shared } where
  wire := h.wire
  sections := h.sections
  pairwise := h.pairwise
  quiet := h.quiet
  closed := h.closed
  orderly := by
    intro hopen j
    change (Function.update st.fibers i t j).Orderly P last (st.phase last j) _
    by_cases hj : j = i
    · subst hj
      rw [Function.update_self]
      exact ht hopen
    · rw [Function.update_of_ne hj]
      exact h.orderly hopen j
  holder := h.holder

theorem Inv.orderly_update (h : Inv P last st) (hopen : st.closed = false) {t : Fiber σ (α i)}
    (hf : st'.fibers = Function.update st.fibers i t)
    (hother : ∀ j, j ≠ i → st'.phase last j = st.phase last j)
    (ht : t.Orderly P last (st'.phase last i) fun _ ph => ph = .idle) (j : ι) :
    (st'.fibers j).Orderly P last (st'.phase last j) fun _ ph => ph = .idle := by
  by_cases hj : j = i
  · subst hj
    rw [hf, Function.update_self]
    exact ht
  · rw [hf, Function.update_of_ne hj, hother j hj]
    exact h.orderly hopen j

/-- **Acquiring the lock.** -/
theorem Inv.lock (h : Inv P last st) {k : Fiber σ (α i)} (hf : st.fibers i = .onLock k)
    (hfree : st.current = none) (hcalm : st.Calm last (.lock i)) :
    Inv P last { st.advance i k with current := some (i, []) } := by
  have hnone : ∀ j, st.held j = none := fun j => by rw [Race.held, hfree]; rfl
  have hnew : ∀ x ∈ some (i, ([] : List UInt8)), x = (i, []) := fun x hx =>
    (Option.mem_some_iff.mp hx).symm
  refine ⟨?_, h.sections, h.pairwise, fun j _ x hx => by rw [hnew x hx], h.closed,
    fun hopen => ?_, fun hopen j hj x hx => ?_⟩
  · have hw := h.wire
    rw [hfree] at hw
    exact hw
  · set st₁ : Sink ι α σ := { st.advance i k with current := some (i, []) } with hst₁
    have hcur : st₁.current = some (i, []) := rfl
    have hi := h.orderly hopen i
    refine h.orderly_update hopen rfl (fun j hj => ?_) ?_
    · by_cases hcl : st.closing last = some j
      · exact absurd (hcalm hopen j hcl) (Ne.symm hj)
      · rw [phase_of_ne hcl, phase_of_ne (show st₁.closing last ≠ some j from hcl), hnone j,
          Race.held_of_ne hcur hj]
    · rw [hf] at hi
      by_cases hcl : st.closing last = some i
      · rw [phase_of_closing hcl, hnone i] at hi
        rw [phase_of_closing (show st₁.closing last = some i from hcl), Race.held_of_current hcur]
        exact hi
      · rw [phase_of_ne hcl, hnone i] at hi
        rw [phase_of_ne (show st₁.closing last ≠ some i from hcl), Race.held_of_current hcur]
        exact hi
  · rw [hnew x hx]
    exact hcalm hopen j hj

/-- **Writing.** -/
theorem Inv.write (h : Inv P last st) {bs rest : List UInt8} {k : Bool → Fiber σ (α i)}
    (hopen : st.closed = false) (hf : st.fibers i = .onWriteAll (bs ++ rest) k) :
    Inv P last { st with toRace := (st.toRace.put i bs).advance i (.onWriteAll rest k) } := by
  have hi := h.orderly hopen i
  rw [hf] at hi
  rcases hph : st.phase last i with _ | c | _ | _ <;> rw [hph] at hi <;> first | exact hi.elim | skip
  obtain ⟨hcur, hcl⟩ := h.of_writing hopen hph
  set st₁ : Sink ι α σ := { st with toRace := (st.toRace.put i bs).advance i (.onWriteAll rest k) }
    with hst₁
  have hcur₁ : st₁.current = some (i, c ++ bs) := by
    simp [hst₁, Race.advance, Race.put, hcur]
  have hcl₁ : ∀ j, st₁.closing last ≠ some j := fun j hj => by
    have hj' : st.closing last = some j := hj
    rw [hcl] at hj'
    cases hj'
  refine ⟨?_, h.sections, h.pairwise, fun j hj => absurd hj (hcl₁ j), h.closed, fun _ => ?_,
    fun _ j hj => absurd hj (hcl₁ j)⟩
  · have hw := h.wire
    rw [hcur] at hw
    rw [hcur₁]
    simp only [hst₁, Race.advance, Race.put, hw, Option.map_some, Option.getD_some,
      List.append_assoc]
  · refine h.orderly_update hopen rfl (fun j hj => ?_) ?_
    · rw [phase_of_ne (hcl₁ j), phase_of_ne (show st.closing last ≠ some j from hcl₁ j),
        Race.held_of_ne hcur₁ hj, Race.held_of_ne hcur hj]
    · rw [phase_of_ne (hcl₁ i), Race.held_of_current hcur₁]
      change (k true).Orderly P last (.writing (c ++ bs ++ rest)) _
      rw [List.append_assoc]
      exact hi

omit [DecidableEq ι] in
theorem closing_append (x : ι × List UInt8) (hd : st'.done = st.done ++ [x]) :
    st'.closing last = (st.closing last).or (if last x.2 then some x.1 else none) := by
  rw [closing, closing, hd, List.find?_append]
  rcases hf : st.done.find? (fun x => last x.2) with _ | y <;> rw [hf]
  · rw [Option.none_or, Option.map_none, Option.none_or, List.find?_singleton]
    split_ifs <;> rfl
  · rfl

omit [DecidableEq ι] in
theorem not_last_of_closing (h : st.closing last = none) : ∀ x ∈ st.done, last x.2 = false := by
  intro x hx
  rw [closing, Option.map_eq_none_iff, List.find?_eq_none] at h
  simpa using h x hx

theorem Inv.pairwise_append (h : Inv P last st) {c : List UInt8} (hcur : st.current = some (i, c)) :
    (st.done ++ [(i, c)]).Pairwise fun x y => last x.2 = true → y.2 = [] := by
  refine List.pairwise_append.mpr ⟨h.pairwise, List.pairwise_singleton _ _, fun x hx y hy hl => ?_⟩
  obtain rfl := List.mem_singleton.mp hy
  rcases hcl : st.closing last with _ | j
  · rw [not_last_of_closing hcl x hx] at hl
    cases hl
  · exact h.quiet j hcl _ hcur

/-- **Releasing the lock.** -/
theorem Inv.unlock (h : Inv P last st) {k : Fiber σ (α i)}
    {c : List UInt8} (hf : st.fibers i = .onUnlock k) (hcur : st.current = some (i, c)) :
    Inv P last { st.advance i k with done := st.done ++ [(i, c)], current := none } := by
  set st₁ : Sink ι α σ :=
    { st.advance i k with done := st.done ++ [(i, c)], current := none } with hst₁
  have happ : st₁.closing last = (st.closing last).or (if last c then some i else none) :=
    closing_append (i, c) rfl
  have hnone : ∀ j, st₁.held j = none := fun j => rfl
  have hcur₁ : ∀ x, x ∈ st₁.current → False := by
    intro x hx
    cases hx
  have hwire : st₁.wire = st₁.done.flatMap Prod.snd ++ (st₁.current.map Prod.snd).getD [] := by
    have hw := h.wire
    rw [hcur] at hw
    simp [hst₁, Sink.advance, Race.advance, hw]
  have hkept : ∀ j, st.closing last = some j → st₁.closing last = some j := fun j hj => by
    rw [happ, hj]
    rfl
  -- what was written in the section, and how its fiber goes on
  have hsec : (c ≠ [] → P c) ∧ (st.closed = false →
      k.Orderly P last (st₁.phase last i) (fun _ ph => ph = .idle)) := by
    rcases hcl : st.closing last with _ | j
    · have hopen : st.closed = false := by
        by_contra hc
        obtain ⟨j, hj⟩ := h.closed (by simpa using hc)
        rw [hcl] at hj
        cases hj
      have hi := h.orderly hopen i
      rw [hf, phase_of_ne (by simp [hcl]), Race.held_of_current hcur] at hi
      refine ⟨hi.1, fun _ => ?_⟩
      have hphase : st₁.phase last i = if last c then .ending false else .idle := by
        rw [hcl, Option.none_or] at happ
        split_ifs at happ ⊢ with hl
        · exact phase_of_closing happ
        · rw [phase_of_ne (by simp [happ]), hnone]
          rfl
      rw [hphase]
      exact hi.2
    · have hc : c = [] := h.quiet j hcl _ hcur
      refine ⟨fun hne => absurd hc hne, fun hopen => ?_⟩
      obtain rfl : i = j := h.holder hopen j hcl _ hcur
      have hi := h.orderly hopen i
      rw [hf, phase_of_closing hcl, Race.held_of_current hcur] at hi
      rw [phase_of_closing (hkept i hcl), hnone]
      exact hi
  refine ⟨hwire, fun x hx hne => ?_, h.pairwise_append hcur, fun _ _ x hx => (hcur₁ x hx).elim,
    fun hc => ?_, fun hopen => ?_, fun _ _ _ x hx => (hcur₁ x hx).elim⟩
  · rcases List.mem_append.mp hx with hx | hx
    · exact h.sections x hx hne
    · obtain rfl := List.mem_singleton.mp hx
      exact hsec.1 hne
  · obtain ⟨j, hj⟩ := h.closed hc
    exact ⟨j, hkept j hj⟩
  · refine h.orderly_update hopen rfl (fun j hj => ?_) (hsec.2 hopen)
    have hne : st.closing last ≠ some j := fun hcl => hj (h.holder hopen j hcl _ hcur).symm
    have hne₁ : st₁.closing last ≠ some j := fun hcl => by
      rw [happ] at hcl
      rcases hst : st.closing last with _ | l
      · rw [hst, Option.none_or] at hcl
        split_ifs at hcl
        cases hcl
        exact hj rfl
      · rw [hst] at hcl
        exact hne (hst.trans hcl)
    rw [phase_of_ne hne, phase_of_ne hne₁, hnone, Race.held_of_ne hcur hj]

/-- **A calm step keeps the invariant.** -/
theorem Inv.step (h : Inv P last st) (hs : st.CalmStep last st') :
    Inv P last st' := by
  obtain ⟨a, hs, hcalm⟩ := hs
  have horder : ∀ {i : ι} {t : Fiber σ (α i)}, st.fibers i = t → st.closed = false →
      t.Orderly P last (st.phase last i) fun _ ph => ph = .idle := fun hf hopen =>
    hf ▸ h.orderly hopen _
  cases hs with
  | random m hf => exact h.advance st.shared fun hopen => horder hf hopen m
  | shared hf => exact h.advance _ fun hopen => horder hf hopen st.shared
  | lock hf hfree => exact h.lock hf hfree hcalm
  | write bs rest hopen hf => exact h.write hopen hf
  | @written i k hopen hf =>
    refine h.advance st.shared fun _ => ?_
    have hi := horder hf hopen
    rcases hph : st.phase last i with _ | c | _ | _ <;> rw [hph] at hi <;>
      first | exact hi.elim | skip
    rw [Fiber.Orderly, List.append_nil] at hi
    exact hi
  | rejected hclosed hf =>
    refine h.advance st.shared fun hopen => ?_
    rw [hclosed] at hopen
    cases hopen
  | @flush i k ok hf =>
    refine h.advance st.shared fun hopen => ?_
    have hi := horder hf hopen
    rcases hph : st.phase last i with _ | c | _ | _ <;> rw [hph] at hi <;>
      first | exact hi.elim | exact hi ok | skip
    obtain rfl : ok = true := hcalm hopen i (closing_of_ending hph).1
    exact hi
  | @close i k ok hf =>
    by_cases hc : st.closed = true
    · have hst : ({ st.advance i (k ok) with closed := st.closed || ok } : Sink ι α σ) =
          { st.advance i (k ok) with shared := st.shared } := by
        rw [hc]
        simp [Sink.advance, Race.advance, hc]
      rw [hst]
      exact h.advance st.shared fun hopen => by
        rw [hc] at hopen
        cases hopen
    · have hopen : st.closed = false := by simpa using hc
      have hi := horder hf hopen
      rcases hph : st.phase last i with _ | c | _ | _ <;> rw [hph] at hi <;>
        first | exact hi.elim | skip
      have hcl := (closing_of_ending hph).1
      obtain rfl : ok = true := hcalm hopen i hcl
      have hclosed : ∀ {p : Prop}, (st.closed || true) = false → p := fun hx => by
        rw [Bool.or_true] at hx
        cases hx
      exact ⟨h.wire, h.sections, h.pairwise, h.quiet, fun _ => ⟨i, hcl⟩, hclosed, hclosed⟩
  | unlock hf hcur => exact h.unlock hf hcur

/-- **Every moment of a calm run.** Sections that follow a last one are empty. -/
theorem calm_reachable {fibers : (i : ι) → Fiber σ (α i)}
    (ho : ∀ i, (fibers i).Ordered P last) {shared : σ}
    (h : Relation.ReflTransGen (CalmStep last) (init fibers shared) st) : Inv P last st := by
  induction h with
  | refl =>
    exact ⟨rfl, fun x hx => (nomatch hx), List.Pairwise.nil, fun _ hcl => (nomatch hcl),
      fun hc => (nomatch hc), fun _ i => ho i, fun _ _ hcl => (nomatch hcl)⟩
  | tail _ hs ih => exact ih.step hs

end

end Sink
