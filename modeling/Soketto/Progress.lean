import Soketto.Carried
import Soketto.Lib.Wp
import Soketto.Termination

/-!
# The halves of a connection run to the end

The sender performs operations while the receiver is called with vectors. Their steps come in any order,
the writer may break at any time, and the extensions are arbitrary.

* **`wp_write`**: what a `write` leaves; `Tried`: its frame, or at most the beginning of it.
* `tidy_performAll`, `Receiver.tidy_receiveAll`: the halves keep to the lock of the writer, also when
  writes fail.
* `returns_performAll`, `Receiver.returns_receiveAll`: they return a result for each operation and call.
* **`runs_to_end`**: no run goes on forever and none ends in a deadlock.
-/

set_option autoImplicit false

namespace Soketto

open Fiber (View)

/-! ## Writing -/

section Write

variable {σ : Type} {mode : Mode} {v : View}

/-- The outcome of a `write`: its frame has been written as a whole, or it has failed and at most the
beginning of the frame has been written. -/
inductive Tried (bs : List UInt8) (v v' : View) : Except Error Unit → Prop
  | whole (hb : v.broken = false) (hs : v'.sections = v.sections ++ [bs]) : Tried bs v v' (.ok ())
  | torn (part : List UInt8) (hb : v'.broken = true) (hpart : part <+: bs)
      (hnone : v.broken = true → part = []) (hs : v'.sections = v.sections ++ [part]) :
      Tried bs v v' (.error .closed)

theorem quiet_sealHeader (mode : Mode) (header : Header) (data : Storage) :
    (sealHeader mode header data : Fiber σ Header).Quiet fun h =>
      ∃ mask, h = Outgoing.sealed mode mask ⟨header, data.asRef⟩ := by
  cases mode with
  | client => exact fun m => ⟨m, rfl⟩
  | server => exact ⟨0, rfl⟩

/-- **What a `write` leaves**, whatever becomes of the sink. -/
theorem wp_write (hv : v.held = none) (codec : Codec) (header : Header) (data : Storage)
    (mb : List UInt8) :
    (write mode codec header data mb : Fiber σ Written).Wp v fun out v' =>
      v'.held = none ∧ ∃ mask, Tried (Outgoing.bytes mode mask ⟨header, data.asRef⟩) v v' out.result := by
  unfold write
  refine Fiber.wp_bind ((quiet_sealHeader mode header data).wp ?_)
  rintro _ ⟨mask, rfl⟩
  generalize hh : Outgoing.sealed mode mask ⟨header, data.asRef⟩ = h
  have hbytes : Outgoing.bytes mode mask ⟨header, data.asRef⟩ =
      (codec.encodeHeader h).1 ++ (maskPayload h data mb).1 := by
    rw [Outgoing.bytes, hh, Codec.encodeHeader_fst, maskPayload_fst]
  have hwhole : v.broken = false → ∀ v' : View, v'.held = none →
      v'.sections = v.sections ++ [(codec.encodeHeader h).1 ++ (maskPayload h data mb).1] →
      v'.held = none ∧ ∃ mask,
        Tried (Outgoing.bytes mode mask ⟨header, data.asRef⟩) v v' (.ok ()) :=
    fun hb v' hv' hs => ⟨hv', mask, .whole hb (by rw [hbytes, hs])⟩
  have htorn : ∀ part, part <+: (codec.encodeHeader h).1 ++ (maskPayload h data mb).1 →
      (v.broken = true → part = []) → ∀ v' : View, v'.held = none → v'.broken = true →
      v'.sections = v.sections ++ [part] → v'.held = none ∧ ∃ mask,
        Tried (Outgoing.bytes mode mask ⟨header, data.asRef⟩) v v' (.error .closed) :=
    fun part hpart hnone v' hv' hb hs => ⟨hv', mask, .torn part hb (by rw [hbytes]; exact hpart) hnone hs⟩
  -- the sink may have broken before the lock is acquired
  exact ⟨Fiber.wp_section hv hwhole fun part hpart hnone v' hv' hb hs =>
      ⟨htorn part hpart hnone v' hv' hb hs, htorn part hpart hnone v' hv' hb hs⟩,
    Fiber.wp_section hv (fun hb => (by cases hb)) fun part hpart hnone v' hv' hb hs =>
      ⟨htorn part hpart (fun _ => hnone rfl) v' hv' hb hs,
        htorn part hpart (fun _ => hnone rfl) v' hv' hb hs⟩⟩

theorem tidy_write (mode : Mode) (codec : Codec) (header : Header) (data : Storage) (mb : List UInt8) :
    (write mode codec header data mb : Fiber σ Written).Tidy :=
  fun _ hv => (wp_write hv codec header data mb).mono fun _ _ h => h.1

theorem tidy_flushWriter : (flushWriter : Fiber σ (Except Error Unit)).Tidy :=
  fun _ hv => ⟨hv, nofun, fun _ => ⟨[], rfl, rfl, rfl⟩⟩

theorem tidy_closeWriter : (closeWriter : Fiber σ (Except Error Unit)).Tidy :=
  fun _ hv => ⟨hv, nofun, fun _ => ⟨[], rfl, rfl, rfl⟩⟩

end Write

/-! ## The sender -/

section Sender

variable {E : Type}

theorem tidy_sender_write (s : Sender) (header : Header) (data : Storage) :
    (s.write header data : Fiber (List E) Sent).Tidy :=
  (tidy_write _ _ _ _ _).bind fun _ => Fiber.tidy_pure _

theorem tidy_sender_close (s : Sender) : (s.close : Fiber (List E) Sent).Tidy := by
  refine (tidy_sender_write _ _ _).bind fun out => ?_
  rcases out with ⟨e | u, s'⟩
  · exact Fiber.tidy_pure _
  · refine tidy_flushWriter.bind fun out => ?_
    rcases out with e | u
    · exact Fiber.tidy_pure _
    · exact tidy_closeWriter.bind fun _ => Fiber.tidy_pure _

variable [Extension E]

theorem tidy_sendFrame (s : Sender) (header : Header) (data : Storage) :
    (s.sendFrame header data : Fiber (List E) (Option Sent)).Tidy := by
  unfold Sender.sendFrame
  split_ifs
  · exact (tidy_sender_write s header data).bind fun _ => Fiber.tidy_pure _
  · refine (Fiber.tidy_locked _).bind fun encoded => ?_
    rcases encoded with _ | ⟨e | u, header, data⟩
    · exact Fiber.tidy_pure _
    · exact Fiber.tidy_pure _
    · exact (tidy_sender_write s header data).bind fun _ => Fiber.tidy_pure _

theorem tidy_perform (s : Sender) (op : Op) : (s.perform op : Fiber (List E) (Option Sent)).Tidy := by
  cases op with
  | sendText data => exact tidy_sendFrame _ _ _
  | sendTextOwned data => exact tidy_sendFrame _ _ _
  | sendBinary data => exact tidy_sendFrame _ _ _
  | sendBinaryMut data => exact tidy_sendFrame _ _ _
  | sendPing data => exact (tidy_sender_write _ _ _).bind fun _ => Fiber.tidy_pure _
  | sendPong data => exact (tidy_sender_write _ _ _).bind fun _ => Fiber.tidy_pure _
  | flush => exact tidy_flushWriter.bind fun _ => Fiber.tidy_pure _
  | close => exact (tidy_sender_close s).bind fun _ => Fiber.tidy_pure _

theorem tidy_performAll (s : Sender) (ops : List Op) : (s.performAll ops : Fiber (List E) _).Tidy := by
  induction ops generalizing s with
  | nil => exact Fiber.tidy_pure _
  | cons op ops ih =>
    refine (tidy_perform s op).bind fun out => ?_
    rcases out with _ | ⟨result, s'⟩
    · exact Fiber.tidy_pure _
    · refine (ih s').bind fun out => ?_
      rcases out with _ | ⟨results, s''⟩ <;> exact Fiber.tidy_pure _

theorem returns_perform {s : Sender} {op : Op}
    (h : (s.perform op : Fiber (List E) (Option Sent)).Returns none) :
    ∃ (es : List E) (header : Header) (data : Storage), Extension.encodeAll es header data = none := by
  have hframe : ∀ {header data}, (s.sendFrame header data : Fiber (List E) (Option Sent)).Returns none →
      ∃ (es : List E) (header : Header) (data : Storage),
        Extension.encodeAll es header data = none := by
    intro header data h
    unfold Sender.sendFrame at h
    split_ifs at h
    · obtain ⟨_, -, hret⟩ := Fiber.returns_bind.mp h
      cases hret
    · obtain ⟨encoded, ⟨es, hes⟩, h⟩ := Fiber.returns_bind.mp h
      rcases henc : Extension.encodeAll es header data with _ | d
      · exact ⟨es, header, data, henc⟩
      · simp only [henc] at hes
        obtain rfl := hes
        rcases hd : d.result with e | u <;> simp only [hd] at h
        · cases h
        · obtain ⟨_, -, hret⟩ := Fiber.returns_bind.mp h
          cases hret
  cases op with
  | sendText data => exact hframe h
  | sendTextOwned data => exact hframe h
  | sendBinary data => exact hframe h
  | sendBinaryMut data => exact hframe h
  | _ =>
    obtain ⟨_, -, hret⟩ := Fiber.returns_bind.mp h
    cases hret

/-- Operations return a result each, unless the `encode` of an extension does not return. -/
theorem returns_performAll {s : Sender} {ops : List Op}
    {out : Option (List (Except Error Unit) × Sender)}
    (h : (s.performAll ops : Fiber (List E) _).Returns out) :
    (∃ results s', out = some (results, s') ∧ results.length = ops.length) ∨
      out = none ∧ ∃ (es : List E) (header : Header) (data : Storage),
        Extension.encodeAll es header data = none := by
  induction ops generalizing s out with
  | nil => exact .inl ⟨[], s, h.symm, rfl⟩
  | cons op ops ih =>
    obtain ⟨sent, hop, h⟩ := Fiber.returns_bind.mp h
    rcases sent with _ | ⟨result, s'⟩
    · exact .inr ⟨h.symm, returns_perform hop⟩
    · obtain ⟨out', hops, h⟩ := Fiber.returns_bind.mp h
      rcases ih hops with ⟨results, s'', rfl, hlen⟩ | ⟨rfl, hnone⟩
      · exact .inl ⟨result :: results, s'', h.symm, congrArg (· + 1) hlen⟩
      · exact .inr ⟨h.symm, hnone⟩

end Sender

/-! ## The receiver -/

namespace Receiver

variable {E : Type}

theorem tidy_flush (self : Receiver) : (self.flush : Fiber (List E) (Except Error Unit)).Tidy := by
  unfold flush
  split_ifs
  · exact Fiber.tidy_pure _
  · exact tidy_flushWriter

theorem tidy_onControl (self : Receiver) (header : Header) :
    (self.onControl header : Fiber (List E) _).Tidy := by
  unfold onControl
  split
  · refine (tidy_write _ _ _ _ _).bind fun w => ?_
    dsimp only
    split
    · exact Fiber.tidy_pure _
    · refine (tidy_flush _).bind fun out => ?_
      rcases out with e | u <;> exact Fiber.tidy_pure _
  · exact Fiber.tidy_pure _
  · split
    · exact Fiber.tidy_pure _
    · refine (tidy_write _ _ _ _ _).bind fun w => (tidy_flush _).bind fun out => ?_
      rcases out with e | u
      · exact Fiber.tidy_pure _
      · exact tidy_closeWriter.bind fun _ => Fiber.tidy_pure _
  · exact Fiber.tidy_pure _

theorem tidy_controlFrame (self : Receiver) (header : Header) (l : Locals) :
    (self.controlFrame header l : Fiber (List E) Round).Tidy := by
  unfold controlFrame
  rcases self.readBuffer header with ⟨e | u, r₁⟩
  · exact Fiber.tidy_pure _
  · dsimp only
    split_ifs
    · exact Fiber.tidy_pure _
    · refine (tidy_onControl _ _).bind fun out => ?_
      rcases out with ⟨e | _ | reason, r₂⟩ <;> exact Fiber.tidy_pure _

variable [Extension E]

theorem tidy_receiveRound (self : Receiver) (l : Locals) :
    (self.receiveRound l : Fiber (List E) (Option Round)).Tidy := by
  unfold receiveRound
  split_ifs
  · exact Fiber.tidy_pure _
  · split
    · exact Fiber.tidy_pure _
    · exact Fiber.tidy_pure _
    · split_ifs
      · exact (tidy_controlFrame _ _ _).bind fun _ => Fiber.tidy_pure _
      · exact (quiet_dataFrame _ _ _).tidy.bind fun _ => Fiber.tidy_pure _

theorem tidy_receiveLoop (fuel : ℕ) (self : Receiver) (l : Locals) :
    (receiveLoop fuel self l : Fiber (List E) _).Tidy := by
  induction fuel generalizing self l with
  | zero => exact Fiber.tidy_pure _
  | succ fuel ih =>
    refine (tidy_receiveRound self l).bind fun out => ?_
    rcases out with _ | ⟨self, l⟩ | ⟨result, self, message⟩
    · exact Fiber.tidy_pure _
    · exact ih self l
    · exact Fiber.tidy_pure _

theorem tidy_receiveAll (self : Receiver) (ms : List (List UInt8)) :
    (self.receiveAll ms : Fiber (List E) _).Tidy := by
  induction ms generalizing self with
  | nil => exact Fiber.tidy_pure _
  | cons m ms ih =>
    refine (tidy_receiveLoop _ self (.start m)).bind fun out => ?_
    rcases out with _ | out
    · exact Fiber.tidy_pure _
    · refine (ih out.receiver).bind fun outs => ?_
      rcases outs with _ | outs <;> exact Fiber.tidy_pure _

/-- Whatever the other half does to the extensions, a round sees them once. -/
theorem once_receiveRound (self : Receiver) (l : Locals) :
    (self.receiveRound l : Fiber (List E) (Option Round)).Once := by
  have hassemble : ∀ (r : Receiver) header l, (r.assemble header l : Fiber (List E) Round).Once := by
    intro r header l
    have hdecode : ∀ header m, (r.decodeWithExtensions header m : Fiber (List E) _).Once := by
      intro header m
      unfold decodeWithExtensions
      split_ifs
      · trivial
      · exact fun _ => trivial
    unfold assemble
    split
    · split <;> trivial
    all_goals
      split <;> first
        | trivial
        | refine (hdecode _ _).bind fun out => ?_
          rcases out with ⟨e | u, header, message⟩ <;> trivial
  have hdata : ∀ (r : Receiver) header, (r.dataFrame header l : Fiber (List E) Round).Once := by
    intro r header
    unfold dataFrame
    dsimp only
    split_ifs
    · split <;> trivial
    · rcases r.readPayload header l.message with ⟨e | u, r', message⟩
      · trivial
      · exact hassemble _ _ _
  unfold receiveRound
  split_ifs
  · trivial
  · split
    · trivial
    · trivial
    · split_ifs
      · exact (unshared_controlFrame _ _ _).once.bind fun _ => trivial
      · exact (hdata _ _).bind fun _ => trivial

theorem returns_receiveLoop (fuel : ℕ) {r : Receiver} (hf : r.remaining < fuel) {l : Locals}
    {out : Option (Received Incoming)}
    (h : (receiveLoop fuel r l : Fiber (List E) _).Returns out) : ∃ received, out = some received := by
  induction fuel generalizing r l with
  | zero => omega
  | succ fuel ih =>
    obtain ⟨out', hround, h⟩ := Fiber.returns_bind.mp h
    obtain ⟨es, es', hyields⟩ := (once_receiveRound r l).yields [] hround
    obtain ⟨round, rfl⟩ := finishes_receiveRound r l es out' es' hyields
    cases round with
    | again r' l' =>
      have hdec := remaining_again hyields
      exact ih (by omega) h
    | ret result r' m => exact ⟨_, h.symm⟩

theorem returns_receiveAll {r : Receiver} {ms : List (List UInt8)}
    {out : Option (List (Received Incoming))}
    (h : (r.receiveAll ms : Fiber (List E) _).Returns out) :
    ∃ outs, out = some outs ∧ outs.length = ms.length := by
  induction ms generalizing r out with
  | nil => exact ⟨[], h.symm, rfl⟩
  | cons m ms ih =>
    obtain ⟨received, hcall, h⟩ := Fiber.returns_bind.mp h
    obtain ⟨received, rfl⟩ := returns_receiveLoop _ (Nat.lt_succ_self _) hcall
    obtain ⟨out', hcalls, h⟩ := Fiber.returns_bind.mp h
    obtain ⟨outs, rfl, hlen⟩ := ih hcalls
    exact ⟨received :: outs, h.symm, congrArg (· + 1) hlen⟩

end Receiver

/-! ## Both halves -/

instance finite_half : Finite Half :=
  Finite.of_injective (fun i => i == Half.sender) fun i j h => by cases i <;> cases j <;> simp_all

/-- The sender and the receiver have returned: a result for each operation, unless the `encode` of an
extension does not return, and a result for each call. The writer is not locked. -/
structure Over {E : Type} [Extension E] (ops : List Op) (ms : List (List UInt8))
    (st : Fuse Half Half.Output (List E)) : Prop where
  sender : (∃ results s, st.fibers .sender = .ret (some (results, s)) ∧ results.length = ops.length) ∨
    st.fibers .sender = .ret none ∧
      ∃ (es : List E) (header : Header) (data : Storage), Extension.encodeAll es header data = none
  receiver : ∃ outs, st.fibers .receiver = .ret (some outs) ∧ outs.length = ms.length
  free : st.current = none

/-- How it goes on from some moment of the race of the two halves. -/
structure RunsToEnd {E : Type} [Extension E] (ops : List Op) (ms : List (List UInt8))
    (st : Fuse Half Half.Output (List E)) : Prop where
  /-- Not forever: no half moves on after some moment. -/
  still : ∀ run : ℕ → Fuse Half Half.Output (List E), run 0 = st →
    (∀ n, (run n).Step (run (n + 1))) → ∃ N, ∀ n, N ≤ n → (run n).fibers = (run N).fibers
  /-- Not to a deadlock: when no half can move on, everything is over. -/
  ended : (∀ st', ¬st.Moves st') → Over ops ms st
  /-- And it can go on until then. -/
  reaches : ∃ st', Relation.ReflTransGen Fuse.Moves st st' ∧ Over ops ms st'

section Halves

variable {E : Type} [Extension E] {s : Sender} {r : Receiver} {ops : List Op} {ms : List (List UInt8)}
  {shared : List E} {st : Fuse Half Half.Output (List E)}

theorem tidy_halves (s : Sender) (r : Receiver) (ops : List Op) (ms : List (List UInt8)) (i : Half) :
    (halves (E := E) s r ops ms i).Tidy := by
  cases i with
  | sender => exact tidy_performAll s ops
  | receiver => exact r.tidy_receiveAll ms

/-- Halves that do not move on have nothing left to do. -/
theorem over_of_stuck (h : Relation.ReflTransGen Fuse.Step (.init (halves s r ops ms) shared) st)
    (hstuck : ∀ st', ¬st.Moves st') : Over ops ms st := by
  have hp := Fuse.reachable_wp (Q := fun _ _ v => v.held = none)
    (fun i => tidy_halves s r ops ms i _ rfl) h
  obtain ⟨hret, hfree⟩ := hp.stuck (fun _ _ _ hv => hv) hstuck
  have hreturns : ∀ {i a}, st.fibers i = .ret a → (halves (E := E) s r ops ms i).Returns a :=
    fun ha => Fuse.returns h (by rw [ha]; rfl)
  obtain ⟨out, hout⟩ := hret .sender
  obtain ⟨outs, houts⟩ := hret .receiver
  refine ⟨?_, ?_, hfree⟩
  · rcases returns_performAll (hreturns hout) with ⟨results, s', rfl, hlen⟩ | ⟨rfl, hnone⟩
    · exact .inl ⟨results, s', hout, hlen⟩
    · exact .inr ⟨hout, hnone⟩
  · obtain ⟨outs', rfl, hlen⟩ := Receiver.returns_receiveAll (hreturns houts)
    exact ⟨outs', houts, hlen⟩

end Halves

/-- **The halves of a connection run to the end**, whatever operations and calls are made on them, with
any extensions, from any moment of any interleaving of their steps, and also when the writer breaks. -/
theorem runs_to_end {E : Type} [Extension E] (s : Sender) (r : Receiver) (ops : List Op)
    (ms : List (List UInt8)) {shared : List E} {st : Fuse Half Half.Output (List E)}
    (h : Relation.ReflTransGen Fuse.Step (.init (halves s r ops ms) shared) st) :
    RunsToEnd ops ms st where
  still _ _ hrun := Fuse.exists_still hrun
  ended hstuck := over_of_stuck h hstuck
  reaches := by
    obtain ⟨st', hmoves, hlast⟩ := Fuse.exists_last st
    have hreach : Relation.ReflTransGen Fuse.Step st st' := hmoves.lift id fun _ _ hm => hm.1
    exact ⟨st', hmoves, over_of_stuck (h.trans hreach) hlast⟩

/-- The server of an example sends a text and closes while it answers a ping. -/
theorem runs_to_end_pinged :
    ∃ st', Relation.ReflTransGen Fuse.Moves
        (.init (halves pingedServer.finish.1 pingedServer.finish.2.1 [.sendText "a", .close] [[]])
          pingedServer.finish.2.2) st' ∧ Over [.sendText "a", .close] [[]] st' :=
  (runs_to_end pingedServer.finish.1 pingedServer.finish.2.1 [.sendText "a", .close] [[]]
    .refl).reaches

end Soketto
