import Soketto.Connection.Send
import Soketto.Feed.Refine

/-!
# Calls of a receiver without extensions

* `Locals.under m`: without extensions, what `message` held before a call stays in front and
  changes nothing else (**`step_under`**, `Runs.under`).
* `Outcome`: what a call amounts to. `Feed.Receives`, `Receiver.Receives`: repeated calls, up to
  the first error, amount to the given outcomes.
* **`sim_receives`**: the calls of a receiver amount to what the calls on its stream amount to,
  whatever vectors they are given.
-/

set_option autoImplicit false

namespace Soketto

open Incremental Chunked

variable {E : Type}

/-- An open receiver without extensions, none of whose reads and writes fails. -/
structure Receiver.Ready (r : Receiver) (w : World (List E)) : Prop where
  hasExtensions : r.hasExtensions = false
  shared : w.shared = []
  isClosed : r.isClosed = false
  clean : Clean r.reader
  healthy : w.Healthy

theorem ready_finish {b : Builder E} (hx : b.extensions = []) (hc : Clean b.socket)
    (randoms : List UInt32) : b.finish.2.1.Ready (b.world randoms) where
  hasExtensions := by simp only [Builder.finish, hx]; rfl
  shared := hx
  isClosed := rfl
  clean := hc
  healthy := ⟨rfl, rfl⟩

/-- What a call amounts to: its result, the bytes it appends to `message`, the frames it sends in
reply and the position in the stream where it ends. -/
structure Outcome where
  result : Except Error Incoming
  appended : List UInt8
  replies : List Outgoing
  pos : ℕ
  deriving DecidableEq

/-- The outcome without the replies. -/
def Outcome.silent (o : Outcome) : Outcome := { o with replies := [] }

/-- Calls of `receive` with the vectors `ms`, up to the first error, amount to `outs`; positions
are those in the stream `s`. -/
def Receiver.Receives [Extension E] (s : List UInt8) (r : Receiver) (w : World (List E)) :
    List (List UInt8) → List Outcome → Prop
  | [], [] => True
  | m :: ms, o :: os =>
    ∃ r' w', (r.receive m).run w = (some ⟨o.result, r', m ++ o.appended⟩, w') ∧
      w'.wire = w.wire ++ Outgoing.encode r.mode w.randoms o.replies ∧
      (InSync o.result → r'.stream = s.drop o.pos ∧ o.pos ≤ s.length) ∧
      match o.result with
      | .ok _ => Receives s r' w' ms os
      | .error _ => ms = [] ∧ os = []
  | _, _ => False

/-! ## The vector given to a call -/

/-- The locals of the same call, with `m` in front of the message. -/
def Locals.under (m : List UInt8) (l : Locals) : Locals :=
  { l with messageLen := m.length + l.messageLen, message := m ++ l.message }

/-- The same step, with `m` in front of the message. -/
def Step.under (m : List UInt8) : Step E → Step E
  | .again st l => .again st (l.under m)
  | .ret result st message => .ret result st (m ++ message)

theorem start_eq_under (m : List UInt8) : Locals.start m = (Locals.start []).under m := by
  simp [Locals.start, Locals.under]

theorem wrappingSub_add (k a b : ℕ) : wrappingSub (k + a) (k + b) = wrappingSub a b := by
  unfold wrappingSub
  split_ifs <;> omega

namespace Feed

variable [Extension E] {cfg : Config}

theorem decode_plain (hx : cfg.hasExtensions = false) (st : Feed E) (h : Header)
    (message : List UInt8) : st.decode cfg h message = ⟨.ok (), st.exts, h, message⟩ := by
  rw [decode, hx]
  rfl

omit [Extension E] in
theorem onControl_under (st : Feed E) (h : Header) (payload m : List UInt8) (l : Locals) :
    st.onControl h payload (l.under m) = (st.onControl h payload l).under m := by
  unfold onControl
  cases h.opcode <;> try rfl
  rcases closeAnswer payload with e | ⟨answer, _ | r⟩ <;> rfl

theorem onData_under (hx : cfg.hasExtensions = false) (st : Feed E) (h : Header) (m : List UInt8)
    (l : Locals) : st.onData cfg h (l.under m) = (st.onData cfg h l).under m := by
  unfold onData
  rw [show (l.under m).firstFragmentOpcode = l.firstFragmentOpcode from rfl]
  cases place l.firstFragmentOpcode h <;> simp only [decode_plain hx]
  · rfl
  · rfl
  · rfl
  all_goals
    rw [finish, finish]
    simp only [Step.under, Locals.under, List.length_append, wrappingSub_add]

/-- **What `message` held before a call changes nothing**, without extensions. -/
theorem step_under (hx : cfg.hasExtensions = false) (st : Feed E) (m : List UInt8) (l : Locals) :
    st.step cfg (l.under m) = (st.step cfg l).under m := by
  unfold step
  split_ifs
  · rfl
  rcases cfg.codec.decodeHeader.run st.stream with e | ⟨h, off⟩ | n
  · rfl
  · dsimp only [onFrame]
    rw [show (l.under m).length = l.length from rfl]
    split_ifs with h₁ h₂ h₃ h₄
    · rfl
    · exact onControl_under _ _ _ _ _
    · rfl
    · simp only [Step.under, Locals.under, List.append_assoc]
    · rw [← onData_under hx]
      simp only [Locals.under, List.append_assoc]
  · rfl

theorem Steps.under (hx : cfg.hasExtensions = false) {st st' : Feed E} {l l' : Locals}
    (h : Steps cfg st l st' l') (m : List UInt8) : Steps cfg st (l.under m) st' (l'.under m) := by
  induction h with
  | refl => exact .refl _ _
  | head h _ ih => exact .head (by rw [step_under hx, h]; rfl) ih

theorem Runs.under (hx : cfg.hasExtensions = false) {st st' : Feed E}
    {result : Except Error Incoming} {x : List UInt8} (h : Runs cfg st (.start []) result st' x)
    (m : List UInt8) : Runs cfg st (.start m) result st' (m ++ x) := by
  obtain ⟨st₁, l₁, hs, hr⟩ := h
  rw [start_eq_under]
  exact ⟨st₁, l₁.under m, hs.under hx m, by rw [step_under hx, hr]; rfl⟩

/-! ## Repeated calls -/

/-- Calls on the stream, up to the first error, amount to `outs`. -/
def Receives (cfg : Config) (s : List UInt8) (st : Feed E) : List Outcome → Prop
  | [] => True
  | o :: os =>
    ∃ st', Runs cfg st (.start []) o.result st' o.appended ∧ st'.sent = st.sent ++ o.replies ∧
      (InSync o.result → st'.stream = s.drop o.pos ∧ o.pos ≤ s.length) ∧
      match o.result with
      | .ok _ => Receives cfg s st' os
      | .error _ => os = []

omit [Extension E] in
theorem wire_world {mode : Mode} {w₀ : World (List E)} {st st' : Feed E} {rs : List Outgoing}
    (h : st'.sent = st.sent ++ rs) :
    (st'.world mode w₀).wire = (st.world mode w₀).wire ++
      Outgoing.encode mode (st.world mode w₀).randoms rs := by
  simp only [world, h, emit_append]
  rfl

theorem receives_of_tracks {r₀ : Receiver} {w₀ : World (List E)} (hx : r₀.hasExtensions = false)
    (hw : w₀.Healthy) {s : List UInt8} {outs : List Outcome} {st : Feed E}
    (hr : Receives r₀.config s st outs) {r : Receiver} {w : World (List E)}
    (hT : Tracks r₀ w₀ r w st) {ms : List (List UInt8)} (hl : ms.length = outs.length) :
    r.Receives s w ms outs := by
  induction outs generalizing st r w ms with
  | nil =>
    obtain rfl := List.length_eq_zero_iff.mp hl
    exact trivial
  | cons o os ih =>
    obtain ⟨m, ms, rfl⟩ := List.exists_cons_of_length_eq_add_one hl
    obtain ⟨st', hrun, hsent, hpos, hrest⟩ := hr
    rcases sim_receive (hrun.under hx m) hT with hb | ⟨r', w', hout, hT', hw'⟩
    · exact absurd hw hb.1
    have hmode : r.mode = r₀.mode := congrArg Config.mode hT.config
    refine ⟨r', w', hout, ?_, fun hs => ?_, ?_⟩
    · rw [hw' hw, hT.world hw, hmode]
      exact wire_world hsent
    · rw [(hT' hs).stream]
      exact hpos hs
    · cases hres : o.result with
      | error e =>
        rw [hres] at hrest
        obtain rfl : os = [] := hrest
        exact ⟨List.length_eq_zero_iff.mp (Nat.succ.inj hl), rfl⟩
      | ok i =>
        rw [hres] at hrest
        exact ih hrest (hT' (by rw [hres]; trivial)) (Nat.succ.inj hl)

/-- **The calls of a receiver amount to what the calls on its stream amount to.** -/
theorem sim_receives {r : Receiver} {w : World (List E)} (h : r.Ready w) {s : List UInt8}
    {outs : List Outcome} (hr : Receives r.config s (ofReceiver r ([] : List E)) outs)
    {ms : List (List UInt8)}
    (hl : ms.length = outs.length) : r.Receives s w ms outs :=
  receives_of_tracks h.hasExtensions h.healthy hr (h.shared ▸ .start h.clean h.isClosed w) hl

/-- The calls on the stream amount to what the calls of the receiver amount to, as far as the
replies are not looked at. -/
theorem exists_of_receives {r₀ : Receiver} {w₀ : World (List E)} (hx : r₀.hasExtensions = false)
    (hw : w₀.Healthy) {s : List UInt8} {outs : List Outcome} {st : Feed E} {r : Receiver}
    {w : World (List E)} {ms : List (List UInt8)} (h : r.Receives s w ms outs)
    (hT : Tracks r₀ w₀ r w st) :
    ∃ outs', Receives r₀.config s st outs' ∧
      outs'.map Outcome.silent = outs.map Outcome.silent := by
  induction outs generalizing st r w ms with
  | nil => exact ⟨[], trivial, rfl⟩
  | cons o os ih =>
    cases ms with
    | nil => exact h.elim
    | cons m ms =>
      obtain ⟨r', w', hout, -, hpos, hrest⟩ := h
      obtain ⟨result, st', x, hrun⟩ := exists_runs r₀.config st (.start [])
      rcases sim_receive (hrun.under hx m) hT with hb | ⟨r'', w'', hout', hT', -⟩
      · exact absurd hw hb.1
      have heq := hout.symm.trans hout'
      rw [Prod.mk.injEq, Option.some.injEq, Received.mk.injEq] at heq
      obtain ⟨⟨hres, rfl, happ⟩, rfl⟩ := heq
      obtain rfl := List.append_cancel_left happ
      subst hres
      obtain ⟨rs, hrs⟩ := hrun.sent
      cases hok : o.result with
      | error e =>
        rw [hok] at hrest
        obtain ⟨-, rfl⟩ := hrest
        refine ⟨[{ o with replies := rs }], ⟨st', hrun, hrs.symm, fun hs => ?_, ?_⟩, rfl⟩
        · rw [← (hT' hs).stream]
          exact hpos hs
        · simp only [hok]
      | ok i =>
        rw [hok] at hrest
        obtain ⟨os', hos', hsil⟩ := ih hrest (hT' (by rw [hok]; trivial))
        refine ⟨{ o with replies := rs } :: os', ⟨st', hrun, hrs.symm, fun hs => ?_, ?_⟩, ?_⟩
        · rw [← (hT' hs).stream]
          exact hpos hs
        · simp only [hok]
          exact hos'
        · rw [List.map_cons, List.map_cons, hsil]
          rfl

end Feed

end Soketto
