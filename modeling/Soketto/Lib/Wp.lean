import Mathlib.Data.DFinsupp.WellFounded
import Soketto.Lib.Fuse

/-!
# What fibers promise at a sink that may break

Preconditions of fibers. At each moment the sink may break: a write is then cut short, this one and all
later ones fail, and the fiber goes on as it does after failed writes.

* `Fiber.View`: where a fiber stands with the sink. `Fiber.Wp`: from this view on, the fiber keeps to the
  lock, whatever the outcomes of its effects, and returns with a view such that `Q`. **`wp_bind`**,
  **`wp_section`**.
* `Fiber.Tidy`: the fiber keeps to the lock. `Fiber.Next`: what is left when a fiber moves on.
* **`Fuse.reachable_wp`**: in a race of such fibers, the views are those of the race.
* `Fuse.Moves`: a fiber has moved on. **`Fuse.Promised.stuck`**: no race of such fibers is deadlocked.
  **`Fuse.wellFounded_moves`**, **`Fuse.exists_still`**: no race goes on forever.
-/

set_option autoImplicit false

/-- Where a fiber stands with the sink: whether the sink is broken, what the fiber has written in the
section it is in, and the sections it has finished. -/
structure Fiber.View where
  broken : Bool
  held : Option (List UInt8)
  sections : List (List UInt8)

namespace Fiber

variable {σ α β : Type}

/-- The view when the sink has broken. -/
def View.torn (v : View) : View := { v with broken := true }

@[simp] theorem View.torn_held (v : View) : v.torn.held = v.held := rfl

@[simp] theorem View.torn_sections (v : View) : v.torn.sections = v.sections := rfl

@[simp] theorem View.torn_broken (v : View) : v.torn.broken = true := rfl

/-- From this view on, the fiber keeps to the lock and returns with a view such that `Q`. -/
def Wp : Fiber σ α → View → (α → View → Prop) → Prop
  | ret a, v, Q => Q a v ∧ Q a v.torn
  | onRandom k, v, Q => ∀ m, (k m).Wp v Q
  | onShared _ k, v, Q => ∀ s, (k s).Wp v Q
  | onLock k, v, Q => v.held = none ∧ k.Wp { v with held := some [] } Q
  | onWriteAll bs k, v, Q => ∃ c, v.held = some c ∧
    (v.broken = false → (k true).Wp { v with held := some (c ++ bs) } Q) ∧
    ∀ pre, pre <+: bs → (v.broken = true → pre = []) →
      (k false).Wp { v.torn with held := some (c ++ pre) } Q
  | onFlush k, v, Q => v.held ≠ none ∧ ∀ ok, (k ok).Wp v Q
  | onClose k, v, Q => v.held ≠ none ∧ ∀ ok, (k ok).Wp v Q
  | onUnlock k, v, Q => ∃ c, v.held = some c ∧
    k.Wp { v with held := none, sections := v.sections ++ [c] } Q

variable {v : View} {Q Q' : α → View → Prop}

@[simp] theorem wp_pure {a : α} : (pure a : Fiber σ α).Wp v Q ↔ Q a v ∧ Q a v.torn := Iff.rfl

theorem Wp.mono {t : Fiber σ α} (h : t.Wp v Q) (hQ : ∀ a v', Q a v' → Q' a v') : t.Wp v Q' := by
  induction t generalizing v with
  | ret a => exact ⟨hQ a v h.1, hQ a v.torn h.2⟩
  | onRandom k ih => exact fun m => ih m (h m)
  | onShared f k ih => exact fun s => ih s (h s)
  | onLock k ih => exact ⟨h.1, ih h.2⟩
  | onWriteAll bs k ih =>
    obtain ⟨c, hc, hok, hcut⟩ := h
    exact ⟨c, hc, fun hb => ih true (hok hb), fun pre hpre hb => ih false (hcut pre hpre hb)⟩
  | onFlush k ih => exact ⟨h.1, fun ok => ih ok (h.2 ok)⟩
  | onClose k ih => exact ⟨h.1, fun ok => ih ok (h.2 ok)⟩
  | onUnlock k ih =>
    obtain ⟨c, hc, h⟩ := h
    exact ⟨c, hc, ih h⟩

/-- **A break of the sink** is among the outcomes. -/
theorem Wp.tear {t : Fiber σ α} (h : t.Wp v Q) : t.Wp v.torn Q := by
  induction t generalizing v with
  | ret a => exact ⟨h.2, h.2⟩
  | onRandom k ih => exact fun m => ih m (h m)
  | onShared f k ih => exact fun s => ih s (h s)
  | onLock k ih => exact ⟨h.1, ih h.2⟩
  | onWriteAll bs k ih =>
    obtain ⟨c, hc, -, hcut⟩ := h
    refine ⟨c, hc, fun hb => (by cases hb), fun pre hpre hb => ?_⟩
    obtain rfl := hb rfl
    exact hcut [] hpre fun _ => rfl
  | onFlush k ih => exact ⟨h.1, fun ok => ih ok (h.2 ok)⟩
  | onClose k ih => exact ⟨h.1, fun ok => ih ok (h.2 ok)⟩
  | onUnlock k ih =>
    obtain ⟨c, hc, h⟩ := h
    exact ⟨c, hc, ih h⟩

/-- **The precondition of a bind.** -/
theorem wp_bind {t : Fiber σ α} {f : α → Fiber σ β} {Q : β → View → Prop}
    (h : t.Wp v fun a v' => (f a).Wp v' Q) : (t >>= f).Wp v Q := by
  change (t.bind f).Wp v Q
  induction t generalizing v with
  | ret a => exact h.1
  | onRandom k ih => exact fun m => ih m (h m)
  | onShared g k ih => exact fun s => ih s (h s)
  | onLock k ih => exact ⟨h.1, ih h.2⟩
  | onWriteAll bs k ih =>
    obtain ⟨c, hc, hok, hcut⟩ := h
    exact ⟨c, hc, fun hb => ih true (hok hb), fun pre hpre hb => ih false (hcut pre hpre hb)⟩
  | onFlush k ih => exact ⟨h.1, fun ok => ih ok (h.2 ok)⟩
  | onClose k ih => exact ⟨h.1, fun ok => ih ok (h.2 ok)⟩
  | onUnlock k ih =>
    obtain ⟨c, hc, h⟩ := h
    exact ⟨c, hc, ih h⟩

theorem Wp.keeps_broken {t : Fiber σ α} (h : t.Wp v Q) :
    t.Wp v fun a v' => Q a v' ∧ (v.broken = true → v'.broken = true) := by
  induction t generalizing v with
  | ret a => exact ⟨⟨h.1, id⟩, h.2, fun _ => rfl⟩
  | onRandom k ih => exact fun m => ih m (h m)
  | onShared f k ih => exact fun s => ih s (h s)
  | onLock k ih => exact ⟨h.1, ih h.2⟩
  | onWriteAll bs k ih =>
    obtain ⟨c, hc, hok, hcut⟩ := h
    exact ⟨c, hc, fun hb => ih true (hok hb), fun pre hpre hb =>
      (ih false (hcut pre hpre hb)).mono fun a v' hq => ⟨hq.1, fun _ => hq.2 rfl⟩⟩
  | onFlush k ih => exact ⟨h.1, fun ok => ih ok (h.2 ok)⟩
  | onClose k ih => exact ⟨h.1, fun ok => ih ok (h.2 ok)⟩
  | onUnlock k ih =>
    obtain ⟨c, hc, h⟩ := h
    exact ⟨c, hc, ih h⟩

theorem Quiet.wp {t : Fiber σ α} {P : α → Prop} (h : t.Quiet P)
    (hQ : ∀ a, P a → Q a v ∧ Q a v.torn) : t.Wp v Q := by
  induction t with
  | ret a => exact hQ a h
  | onRandom k ih => exact fun m => ih m (h m)
  | onShared g k ih => exact fun s => ih s (h s)
  | _ => exact h.elim

/-- **A section of two writes**: both succeed, or a part has been written when the sink breaks. -/
theorem wp_section {a b : List UInt8} {f : Bool → α} {failed : α} (hv : v.held = none)
    (hwhole : v.broken = false → ∀ v', v'.held = none → v'.sections = v.sections ++ [a ++ b] →
      Q (f true) v')
    (htorn : ∀ part, part <+: a ++ b → (v.broken = true → part = []) → ∀ v', v'.held = none →
      v'.broken = true → v'.sections = v.sections ++ [part] → Q (f false) v' ∧ Q failed v') :
    (do
      lock
      if ← writeAll a then
        let ok ← writeAll b
        unlock
        return f ok
      else
        unlock
        return failed : Fiber σ α).Wp v Q := by
  refine ⟨hv, [], rfl, fun hb => ⟨a, rfl, fun _ => ?_, fun pre hpre _ => ?_⟩, fun pre hpre hcut => ?_⟩
  · exact ⟨_, rfl, hwhole hb _ rfl rfl, hwhole hb _ rfl rfl⟩
  · have hpart : a ++ pre <+: a ++ b := (List.prefix_append_right_inj a).mpr hpre
    have hnone : v.broken = true → a ++ pre = [] := fun h => by
      rw [show v.broken = false from hb] at h
      cases h
    exact ⟨_, rfl, (htorn _ hpart hnone _ rfl rfl rfl).1, (htorn _ hpart hnone _ rfl rfl rfl).1⟩
  · have hpart : pre <+: a ++ b := hpre.trans (List.prefix_append a b)
    exact ⟨_, rfl, (htorn _ hpart hcut _ rfl rfl rfl).2, (htorn _ hpart hcut _ rfl rfl rfl).2⟩

/-- Outside of sections, the fiber keeps to the lock whatever the outcomes of its effects, and is left
outside of sections. -/
def Tidy (t : Fiber σ α) : Prop := ∀ v : View, v.held = none → t.Wp v fun _ v' => v'.held = none

theorem tidy_pure (a : α) : (pure a : Fiber σ α).Tidy := fun _ hv => ⟨hv, hv⟩

theorem Tidy.bind {t : Fiber σ α} {f : α → Fiber σ β} (ht : t.Tidy) (hf : ∀ a, (f a).Tidy) :
    (t >>= f).Tidy := fun v hv => wp_bind ((ht v hv).mono fun a v' hv' => hf a v' hv')

theorem tidy_locked (g : σ → β × σ) : (locked g).Tidy := fun _ hv _ => ⟨hv, hv⟩

theorem Quiet.tidy {t : Fiber σ α} {P : α → Prop} (h : t.Quiet P) : t.Tidy :=
  fun _ hv => h.wp fun _ _ => ⟨hv, hv⟩

/-! ## Steps -/

/-- The fiber `t'` is left when `t` moves on. -/
def Next : Fiber σ α → Fiber σ α → Prop
  | ret _, _ => False
  | onRandom k, t' => ∃ m, t' = k m
  | onShared _ k, t' => ∃ s, t' = k s
  | onLock k, t' => t' = k
  | onWriteAll bs k, t' => (∃ ok, t' = k ok) ∨
    ∃ pre rest, bs = pre ++ rest ∧ pre ≠ [] ∧ t' = onWriteAll rest k
  | onFlush k, t' => ∃ ok, t' = k ok
  | onClose k, t' => ∃ ok, t' = k ok
  | onUnlock k, t' => t' = k

/-- **A fiber moves on finitely often.** -/
theorem wellFounded_next : WellFounded fun t' t : Fiber σ α => t.Next t' := by
  refine ⟨fun t => ?_⟩
  induction t with
  | ret a => exact ⟨_, fun _ h => h.elim⟩
  | onLock k ih => exact ⟨_, fun _ h => h ▸ ih⟩
  | onUnlock k ih => exact ⟨_, fun _ h => h ▸ ih⟩
  | onRandom k ih => exact ⟨_, fun _ ⟨m, h⟩ => h ▸ ih m⟩
  | onShared f k ih => exact ⟨_, fun _ ⟨s, h⟩ => h ▸ ih s⟩
  | onFlush k ih => exact ⟨_, fun _ ⟨ok, h⟩ => h ▸ ih ok⟩
  | onClose k ih => exact ⟨_, fun _ ⟨ok, h⟩ => h ▸ ih ok⟩
  | onWriteAll bs k ih =>
    -- each part of the write is shorter
    induction hn : bs.length using Nat.strong_induction_on generalizing bs with
    | _ n ihn =>
      refine ⟨_, fun t' h => ?_⟩
      rcases h with ⟨ok, rfl⟩ | ⟨pre, rest, rfl, hpre, rfl⟩
      · exact ih ok
      · refine ihn rest.length ?_ rest rfl
        have := List.length_pos_iff.mpr hpre
        rw [List.length_append] at hn
        omega

theorem not_next_self (t : Fiber σ α) : ¬t.Next t := wellFounded_next.irrefl.irrefl t

end Fiber

namespace Fuse

variable {ι σ : Type} [DecidableEq ι] {α : ι → Type} {st st' : Fuse ι α σ} {i : ι}

/-- Where the fiber `i` stands with the sink. -/
def view (st : Fuse ι α σ) (i : ι) : Fiber.View := ⟨st.broken, st.held i, st.sections i⟩

/-- What holds at every moment of a race of fibers with preconditions. -/
structure Promised (Q : (i : ι) → α i → Fiber.View → Prop) (st : Fuse ι α σ) : Prop where
  wire : st.wire = st.done.flatMap Prod.snd ++ (st.current.map Prod.snd).getD []
  wp : ∀ i, (st.fibers i).Wp (st.view i) (Q i)

variable {Q : (i : ι) → α i → Fiber.View → Prop}

/-- The views depend on the sections only. -/
theorem view_congr (hc : st'.current = st.current) (hd : st'.done = st.done)
    (hb : st'.broken = st.broken) (j : ι) : st'.view j = st.view j := by
  simp only [view, Race.held, Race.sections, hc, hd, hb]

theorem Promised.update (h : Promised Q st) {t : Fiber σ (α i)}
    (hf : st'.fibers = Function.update st.fibers i t)
    (hw : st'.wire = st'.done.flatMap Prod.snd ++ (st'.current.map Prod.snd).getD [])
    (hother : ∀ j, j ≠ i → st'.view j = st.view j) (ht : t.Wp (st'.view i) (Q i)) :
    Promised Q st' where
  wire := hw
  wp := by
    intro j
    by_cases hj : j = i
    · subst hj
      rw [hf, Function.update_self]
      exact ht
    · rw [hf, Function.update_of_ne hj, hother j hj]
      exact h.wp j

theorem Promised.advance (h : Promised Q st) {t : Fiber σ (α i)}
    (hf : st'.fibers = Function.update st.fibers i t) (hw : st'.wire = st.wire)
    (hc : st'.current = st.current) (hd : st'.done = st.done) (hb : st'.broken = st.broken)
    (ht : t.Wp (st.view i) (Q i)) : Promised Q st' := by
  refine h.update hf ?_ (fun j _ => view_congr hc hd hb j) ?_
  · rw [hw, hc, hd]
    exact h.wire
  · rw [view_congr hc hd hb]
    exact ht

theorem Promised.acquire (h : Promised Q st) {k : Fiber σ (α i)} (hk : st.fibers i = .onLock k)
    (hfree : st.current = none) :
    Promised Q { st.advance i k with current := some (i, []) } := by
  have hnone : ∀ j, st.held j = none := fun j => by rw [Race.held, hfree]; rfl
  have hcur : ({ st.advance i k with current := some (i, []) } : Fuse ι α σ).current =
    some (i, []) := rfl
  have hwp := h.wp i
  rw [hk] at hwp
  refine h.update rfl ?_ (fun j hj => ?_) ?_
  · have hw := h.wire
    rw [hfree] at hw
    exact hw
  · simp only [view, Race.held_of_ne hcur hj, hnone j]
    rfl
  · rw [view, Race.held_of_current hcur]
    exact hwp.2

theorem Promised.release (h : Promised Q st) {k : Fiber σ (α i)} {c : List UInt8}
    (hk : st.fibers i = .onUnlock k) (hcur : st.current = some (i, c)) :
    Promised Q { st.advance i k with done := st.done ++ [(i, c)], current := none } := by
  obtain ⟨c', hheld, hwp⟩ : ∃ c', st.held i = some c' ∧ k.Wp _ (Q i) := by
    have hwp := h.wp i
    rw [hk] at hwp
    exact hwp
  obtain rfl : c = c' := by
    rw [Race.held_of_current hcur] at hheld
    exact Option.some.inj hheld
  refine h.update rfl ?_ (fun j hj => ?_) ?_
  · have hw := h.wire
    rw [hcur] at hw
    simp [Fuse.advance, Race.advance, hw]
  · simp only [view, Race.held_of_ne hcur hj]
    simp [Race.held, Race.sections, List.filter_append, Ne.symm hj, Fuse.advance, Race.advance]
  · have hview : Fuse.view { st.advance i k with done := st.done ++ [(i, c)], current := none } i =
        { st.view i with held := none, sections := st.sections i ++ [c] } := by
      simp [view, Race.held, Race.sections, List.filter_append, Fuse.advance, Race.advance]
    rw [hview]
    exact hwp

/-- **A race of fibers with preconditions** keeps them. -/
theorem Promised.step (h : Promised Q st) (hs : Step st st') : Promised Q st' := by
  -- the precondition of the fiber that moves on
  have hwp : ∀ {i : ι} {t : Fiber σ (α i)}, st.fibers i = t → t.Wp (st.view i) (Q i) :=
    fun hf => hf ▸ h.wp _
  cases hs with
  | @whole r hw hstep =>
    cases hstep with
    | random m hf => exact h.advance rfl rfl rfl rfl hw.symm (hwp hf m)
    | shared hf => exact h.advance rfl rfl rfl rfl hw.symm (hwp hf st.shared)
    | lock hf hfree => exact hw ▸ h.acquire hf hfree
    | @write i bs rest k hf =>
      obtain ⟨c, hheld, hok, hcut⟩ := hwp hf
      have hcur := Race.current_of_held hheld
      have hcur' : ((st.put i bs).advance i (.onWriteAll rest k)).current = some (i, c ++ bs) := by
        simp [Race.advance, Race.put, hcur]
      refine h.update rfl ?_ (fun j hj => ?_) ?_
      · have hwire := h.wire
        rw [hcur] at hwire
        simp [Race.advance, Race.put, hwire, hcur]
      · simp only [view, Race.held_of_ne hcur' hj, Race.held_of_ne hcur hj, hw]
        rfl
      · refine ⟨c ++ bs, Race.held_of_current hcur', fun _ => ?_, fun pre hpre _ => ?_⟩
        · have := hok hw
          rw [← List.append_assoc] at this
          rw [view, hw] at this
          exact this
        · have := hcut (bs ++ pre) ((List.prefix_append_right_inj bs).mpr hpre)
            fun hb => by rw [view, hw] at hb; cases hb
          rw [← List.append_assoc] at this
          exact this
    | @written i k hf =>
      obtain ⟨c, hheld, hok, -⟩ := hwp hf
      refine h.advance rfl rfl rfl rfl hw.symm ?_
      have := hok hw
      rw [List.append_nil, ← hheld] at this
      exact this
    | flush ok hf => exact h.advance rfl rfl rfl rfl hw.symm ((hwp hf).2 ok)
    | close ok hf => exact h.advance rfl rfl rfl rfl hw.symm ((hwp hf).2 ok)
    | unlock hf hc => exact hw ▸ h.release hf hc
  | breaks => exact ⟨h.wire, fun j => (h.wp j).tear⟩
  | random m hb hf => exact h.advance rfl rfl rfl rfl rfl (hwp hf m)
  | shared hb hf => exact h.advance rfl rfl rfl rfl rfl (hwp hf st.shared)
  | lock hb hf hfree => exact h.acquire hf hfree
  | @rejected i bs k hb hf =>
    obtain ⟨c, hheld, -, hcut⟩ := hwp hf
    refine h.advance rfl rfl rfl rfl rfl ?_
    have := hcut [] (List.nil_prefix) fun _ => rfl
    rw [List.append_nil, ← hheld] at this
    rw [show st.view i = (st.view i).torn by rw [view, hb]; rfl]
    exact this
  | flush ok hb hf => exact h.advance rfl rfl rfl rfl rfl ((hwp hf).2 ok)
  | close ok hb hf => exact h.advance rfl rfl rfl rfl rfl ((hwp hf).2 ok)
  | unlock hb hf hc => exact h.release hf hc

/-- **The views of fibers with preconditions** are those of the race, at every moment of it. -/
theorem reachable_wp {fibers : (i : ι) → Fiber σ (α i)} {shared : σ}
    (hwp : ∀ i, (fibers i).Wp ⟨false, none, []⟩ (Q i))
    (h : Relation.ReflTransGen Step (init fibers shared) st) : Promised Q st := by
  induction h with
  | refl => exact ⟨rfl, hwp⟩
  | tail _ hs ih => exact ih.step hs

/-! ## Moving on -/

/-- A step with which a fiber moves on. -/
def Moves (st st' : Fuse ι α σ) : Prop := Step st st' ∧ st'.fibers ≠ st.fibers

theorem Step.fibers (hs : Step st st') :
    st'.fibers = st.fibers ∨
      ∃ i t, (st.fibers i).Next t ∧ st'.fibers = Function.update st.fibers i t := by
  cases hs with
  | whole hw hstep =>
    cases hstep with
    | random m hf => exact .inr ⟨_, _, by rw [hf]; exact ⟨m, rfl⟩, rfl⟩
    | shared hf => exact .inr ⟨_, _, by rw [hf]; exact ⟨_, rfl⟩, rfl⟩
    | lock hf => exact .inr ⟨_, _, by rw [hf]; rfl, rfl⟩
    | @write i bs rest k hf =>
      by_cases hbs : bs = []
      · left
        subst hbs
        exact Function.update_eq_self_iff.mpr hf.symm
      · exact .inr ⟨i, _, by rw [hf]; exact .inr ⟨bs, rest, rfl, hbs, rfl⟩, rfl⟩
    | written hf => exact .inr ⟨_, _, by rw [hf]; exact .inl ⟨true, rfl⟩, rfl⟩
    | flush ok hf => exact .inr ⟨_, _, by rw [hf]; exact ⟨ok, rfl⟩, rfl⟩
    | close ok hf => exact .inr ⟨_, _, by rw [hf]; exact ⟨ok, rfl⟩, rfl⟩
    | unlock hf => exact .inr ⟨_, _, by rw [hf]; rfl, rfl⟩
  | breaks => exact .inl rfl
  | random m _ hf => exact .inr ⟨_, _, by rw [hf]; exact ⟨m, rfl⟩, rfl⟩
  | shared _ hf => exact .inr ⟨_, _, by rw [hf]; exact ⟨_, rfl⟩, rfl⟩
  | lock _ hf => exact .inr ⟨_, _, by rw [hf]; rfl, rfl⟩
  | rejected _ hf => exact .inr ⟨_, _, by rw [hf]; exact .inl ⟨false, rfl⟩, rfl⟩
  | flush ok _ hf => exact .inr ⟨_, _, by rw [hf]; exact ⟨ok, rfl⟩, rfl⟩
  | close ok _ hf => exact .inr ⟨_, _, by rw [hf]; exact ⟨ok, rfl⟩, rfl⟩
  | unlock _ hf => exact .inr ⟨_, _, by rw [hf]; rfl, rfl⟩

theorem moves_of_step {t : Fiber σ (α i)} (hs : Step st st') (ht : (st.fibers i).Next t)
    (hf : st'.fibers = Function.update st.fibers i t) : Moves st st' := by
  refine ⟨hs, fun h => ?_⟩
  rw [hf, Function.update_eq_self_iff] at h
  exact Fiber.not_next_self _ (h ▸ ht)

theorem exists_wellFounded (ι σ : Type) [DecidableEq ι] [Finite ι] (α : ι → Type) :
    ∃ less : ((i : ι) → Fiber σ (α i)) → ((i : ι) → Fiber σ (α i)) → Prop, WellFounded less ∧
      ∀ st st' : Fuse ι α σ, Step st st' → st'.fibers = st.fibers ∨ less st'.fibers st.fibers := by
  have hlex : WellFounded (Pi.Lex WellOrderingRel fun {i : ι} (t' t : Fiber σ (α i)) => t.Next t') :=
    Pi.Lex.wellFounded _ fun i => Fiber.wellFounded_next
  refine ⟨_, hlex, fun st st' hs => hs.fibers.imp_right ?_⟩
  rintro ⟨i, t, ht, hf⟩
  refine ⟨i, fun j hj => ?_, ?_⟩
  · have hne : j ≠ i := fun h => irrefl_of WellOrderingRel j (h ▸ hj)
    rw [hf, Function.update_of_ne hne]
  · rw [hf, Function.update_self]
    exact ht

/-- **No race goes on forever**, though the sink may break and the fibers may be suspended at any
moment. -/
theorem wellFounded_moves [Finite ι] : WellFounded fun st' st : Fuse ι α σ => Moves st st' := by
  obtain ⟨less, hwf, hless⟩ := exists_wellFounded ι σ α
  refine Subrelation.wf (fun {st' st} hm => ?_) (InvImage.wf (fun st : Fuse ι α σ => st.fibers) hwf)
  exact (hless st st' hm.1).resolve_left hm.2

/-- **In a run that never ends**, no fiber moves on after some moment. -/
theorem exists_still [Finite ι] {run : ℕ → Fuse ι α σ} (hrun : ∀ n, Step (run n) (run (n + 1))) :
    ∃ N, ∀ n, N ≤ n → (run n).fibers = (run N).fibers := by
  obtain ⟨less, hwf, hless⟩ := exists_wellFounded ι σ α
  -- by induction on what is left to do at the moment `N`
  suffices h : ∀ fibers N, (run N).fibers = fibers →
      ∃ N, ∀ n, N ≤ n → (run n).fibers = (run N).fibers from h _ 0 rfl
  intro fibers
  induction fibers using hwf.induction with
  | _ fibers ih =>
    intro N hN
    by_cases hstill : ∀ k, (run (N + k)).fibers = fibers
    · refine ⟨N, fun n hn => ?_⟩
      obtain ⟨k, rfl⟩ := Nat.exists_eq_add_of_le hn
      rw [hstill k, hN]
    · rw [not_forall] at hstill
      obtain ⟨k, hk⟩ := hstill
      induction k with
      | zero => exact (hk hN).elim
      | succ k ihk =>
        by_cases hsame : (run (N + k)).fibers = fibers
        · refine ih (run (N + (k + 1))).fibers ?_ (N + (k + 1)) rfl
          rw [← hsame]
          exact (hless _ _ (hrun (N + k))).resolve_left fun h => hk (h.trans hsame)
        · exact ihk hsame

theorem exists_last [Finite ι] (st : Fuse ι α σ) :
    ∃ st', Relation.ReflTransGen Moves st st' ∧ ∀ st'', ¬Moves st' st'' := by
  refine wellFounded_moves.induction (C := fun st : Fuse ι α σ =>
    ∃ st', Relation.ReflTransGen Moves st st' ∧ ∀ st'', ¬Moves st' st'') st fun st ih => ?_
  by_cases hm : ∃ st', Moves st st'
  · obtain ⟨st', hm⟩ := hm
    obtain ⟨last, hreach, hlast⟩ := ih st' hm
    exact ⟨last, .head hm hreach, hlast⟩
  · exact ⟨st, .refl, fun st'' h => hm ⟨st'', h⟩⟩

theorem exists_moves {P : α i → Fiber.View → Prop} (hwp : (st.fibers i).Wp (st.view i) P)
    (hret : ∀ a, st.fibers i ≠ .ret a) (hlock : ∀ k, st.fibers i = .onLock k → st.current = none) :
    ∃ st', Moves st st' := by
  cases hf : st.fibers i with
  | ret a => exact (hret a hf).elim
  | onRandom k =>
    cases hb : st.broken with
    | false => exact ⟨_, moves_of_step (.whole hb (.random 0 hf)) (by rw [hf]; exact ⟨0, rfl⟩) rfl⟩
    | true => exact ⟨_, moves_of_step (.random 0 hb hf) (by rw [hf]; exact ⟨0, rfl⟩) rfl⟩
  | onShared f k =>
    cases hb : st.broken with
    | false => exact ⟨_, moves_of_step (.whole hb (.shared hf)) (by rw [hf]; exact ⟨_, rfl⟩) rfl⟩
    | true => exact ⟨_, moves_of_step (.shared hb hf) (by rw [hf]; exact ⟨_, rfl⟩) rfl⟩
  | onLock k =>
    have hfree := hlock k hf
    cases hb : st.broken with
    | false => exact ⟨_, moves_of_step (.whole hb (.lock hf hfree)) (by rw [hf]; rfl) rfl⟩
    | true => exact ⟨_, moves_of_step (.lock hb hf hfree) (by rw [hf]; rfl) rfl⟩
  | onWriteAll bs k =>
    cases hb : st.broken with
    | false =>
      cases bs with
      | nil =>
        exact ⟨_, moves_of_step (.whole hb (.written hf)) (by rw [hf]; exact .inl ⟨_, rfl⟩) rfl⟩
      | cons b bs =>
        exact ⟨_, moves_of_step (.whole hb (.write [b] bs hf))
          (by rw [hf]; exact .inr ⟨[b], bs, rfl, List.cons_ne_nil _ _, rfl⟩) rfl⟩
    | true => exact ⟨_, moves_of_step (.rejected hb hf) (by rw [hf]; exact .inl ⟨_, rfl⟩) rfl⟩
  | onFlush k =>
    cases hb : st.broken with
    | false => exact ⟨_, moves_of_step (.whole hb (.flush true hf)) (by rw [hf]; exact ⟨_, rfl⟩) rfl⟩
    | true => exact ⟨_, moves_of_step (.flush true hb hf) (by rw [hf]; exact ⟨_, rfl⟩) rfl⟩
  | onClose k =>
    cases hb : st.broken with
    | false => exact ⟨_, moves_of_step (.whole hb (.close true hf)) (by rw [hf]; exact ⟨_, rfl⟩) rfl⟩
    | true => exact ⟨_, moves_of_step (.close true hb hf) (by rw [hf]; exact ⟨_, rfl⟩) rfl⟩
  | onUnlock k =>
    rw [hf] at hwp
    obtain ⟨c, hheld, -⟩ := hwp
    have hcur := Race.current_of_held hheld
    cases hb : st.broken with
    | false => exact ⟨_, moves_of_step (.whole hb (.unlock hf hcur)) (by rw [hf]; rfl) rfl⟩
    | true => exact ⟨_, moves_of_step (.unlock hb hf hcur) (by rw [hf]; rfl) rfl⟩

/-- **No race is deadlocked.** When no fiber moves on, all fibers have returned and the sink is free,
if they return without holding it. -/
theorem Promised.stuck (h : Promised Q st) (hQ : ∀ i a v, Q i a v → v.held = none)
    (hstuck : ∀ st', ¬Moves st st') : (∀ i, ∃ a, st.fibers i = .ret a) ∧ st.current = none := by
  have hwait : ∀ i, (∃ a, st.fibers i = .ret a) ∨
      ∃ k, st.fibers i = .onLock k ∧ st.current ≠ none := by
    intro i
    by_contra hno
    rw [not_or] at hno
    obtain ⟨st', hm⟩ := exists_moves (h.wp i) (fun a ha => hno.1 ⟨a, ha⟩) fun k hk => by
      by_contra hcur
      exact hno.2 ⟨k, hk, hcur⟩
    exact hstuck st' hm
  -- the holder of the lock has not returned, and does not wait for it
  have hfree : st.current = none := by
    by_contra hcur
    obtain ⟨⟨i, c⟩, hc⟩ := Option.ne_none_iff_exists'.mp hcur
    have hheld := Race.held_of_current hc
    have hwp := h.wp i
    rcases hwait i with ⟨a, ha⟩ | ⟨k, hk, -⟩
    · rw [ha] at hwp
      have hnone : st.held i = none := hQ i a _ hwp.1
      rw [hheld] at hnone
      cases hnone
    · rw [hk] at hwp
      have hnone : st.held i = none := hwp.1
      rw [hheld] at hnone
      cases hnone
  refine ⟨fun i => ?_, hfree⟩
  rcases hwait i with hret | ⟨k, -, hcur⟩
  · exact hret
  · exact (hcur hfree).elim

end Fuse
