import Soketto.Grammar

/-!
# What is sent is received

* `Op.frame`: the frame an operation of a sender writes. `run_perform`, `run_performAll`: without
  extensions and on a healthy writer, operations write their frames and succeed.
* `Frame.ofOutgoing`: a written frame, as the peer finds it in its stream.
* `Op.received`, `Op.answer`: what the peer's `receive` returns for an operation, and what it
  answers.
* **`roundTrip`**: a run of operations ended by `close`, and the calls of the peer.
-/

set_option autoImplicit false

namespace Soketto

open Incremental Chunked BigEndian

/-! ## Operations -/

namespace Op

/-- The frame that an operation writes. -/
def frame : Op → Option Outgoing
  | sendText data => some ⟨Header.new .text, data.toUTF8.toList⟩
  | sendTextOwned data => some ⟨Header.new .text, data.toUTF8.toList⟩
  | sendBinary data => some ⟨Header.new .binary, data⟩
  | sendBinaryMut data => some ⟨Header.new .binary, data⟩
  | sendPing data => some ⟨Header.new .ping, data.bytes⟩
  | sendPong data => some ⟨Header.new .pong, data.bytes⟩
  | flush => none
  | close => some ⟨Header.new .close, beBytes 2 1000⟩

/-- What a call of the peer returns for an operation, and the bytes it appends. -/
def received : Op → Option (Except Error Incoming × List UInt8)
  | sendText data | sendTextOwned data =>
    some (.ok (.data (.text data.toUTF8.toList.length)), data.toUTF8.toList)
  | sendBinary data | sendBinaryMut data => some (.ok (.data (.binary data.length)), data)
  | sendPong data => some (.ok (.pong data.bytes), [])
  | close => some (.ok (.closed ⟨1000, some ""⟩), [])
  | sendPing _ | flush => none

/-- The frame with which the peer answers an operation. -/
def answer : Op → Option Outgoing
  | sendPing data => some ⟨Header.new .pong, data.bytes⟩
  | close => some ⟨Header.new .close, beBytes 2 1000⟩
  | _ => none

/-- The payload of the operation is not larger than the peer's limits. -/
def Fits (cfg : Config) (op : Op) : Prop :=
  ∀ f ∈ op.frame, f.payload.length ≤ cfg.maxDataSize.toNat ∧
    (f.header.opcode.isControl = false → f.payload.length ≤ cfg.maxMessageSize.toNat)

instance (cfg : Config) (op : Op) : Decidable (op.Fits cfg) :=
  inferInstanceAs (Decidable (∀ f ∈ op.frame, _))

end Op

/-! ## Sending -/

section Sending

variable {E : Type} [Extension E] {w : World (List E)}

omit [Extension E] in
theorem run_sender_write (hw : w.Healthy) (s : Sender) (header : Header) (data : Storage) :
    ∃ s', (s.write header data).run w = (⟨.ok (), s'⟩, emit s.mode [⟨header, data.asRef⟩] w) ∧
      s'.mode = s.mode ∧ s'.hasExtensions = s.hasExtensions := by
  unfold Sender.write
  simp only [Fiber.run_bind, run_write hw, Fiber.run_pure]
  exact ⟨_, rfl, rfl, rfl⟩

/-- **An operation writes its frame.** -/
theorem run_perform (hw : w.Healthy) {s : Sender} (hx : s.hasExtensions = false) {op : Op}
    (hop : op ≠ .close) :
    ∃ s', (s.perform op).run w = (some ⟨.ok (), s'⟩, emit s.mode op.frame.toList w) ∧
      s'.mode = s.mode ∧ s'.hasExtensions = false := by
  have key : ∀ header data, ∃ s', ((do return some (← s.write header data) :
      Fiber (List E) (Option Sent))).run w =
        (some ⟨.ok (), s'⟩, emit s.mode [⟨header, data.asRef⟩] w) ∧
      s'.mode = s.mode ∧ s'.hasExtensions = false := by
    intro header data
    obtain ⟨s', hr, hm, hs'⟩ := run_sender_write hw s header data
    exact ⟨s', by simp only [Fiber.run_bind, hr, Fiber.run_pure], hm, hs'.trans hx⟩
  have hsend : ∀ header data, ∃ s', (s.sendFrame header data).run w =
        (some ⟨.ok (), s'⟩, emit s.mode [⟨header, data.asRef⟩] w) ∧
      s'.mode = s.mode ∧ s'.hasExtensions = false := by
    intro header data
    rw [Sender.sendFrame, if_pos (by rw [hx]; rfl)]
    exact key header data
  cases op with
  | sendText data => exact hsend _ (.shared data.toUTF8.toList)
  | sendTextOwned data => exact hsend _ (.owned data.toUTF8.toList)
  | sendBinary data => exact hsend _ (.shared data)
  | sendBinaryMut data => exact hsend _ (.unique data)
  | sendPing data => exact key _ (.shared data.bytes)
  | sendPong data => exact key _ (.shared data.bytes)
  | flush =>
    refine ⟨s, ?_, rfl, hx⟩
    simp only [Sender.perform, Sender.flush, Fiber.run_bind, run_flushWriter hw, Fiber.run_pure,
      Op.frame, Option.toList, emit_nil]
  | close => exact absurd rfl hop

theorem run_perform_close (hw : w.Healthy) (s : Sender) :
    ∃ s', (s.perform .close).run w =
      (some ⟨.ok (), s'⟩, { emit s.mode Op.close.frame.toList w with closed := true }) := by
  obtain ⟨s', hr, hm, -⟩ := run_sender_write hw s (Header.new .close) (.shared (beBytes 2 1000))
  refine ⟨s', ?_⟩
  simp only [Sender.perform, Sender.close, Fiber.run_bind, hr, Sender.flush,
    run_flushWriter (healthy_emit s.mode hw _), run_closeWriter (healthy_emit s.mode hw _), Fiber.run_pure]
  rfl

/-- **A run of operations writes their frames**, and all of them succeed. -/
theorem run_performAll (hw : w.Healthy) {s : Sender} (hx : s.hasExtensions = false) {ops : List Op}
    (hops : ∀ op ∈ ops, op ≠ .close) :
    ∃ s', (s.performAll (ops ++ [.close])).run w =
      (some ((ops ++ [Op.close]).map fun _ => .ok (), s'),
        { emit s.mode ((ops ++ [Op.close]).filterMap Op.frame) w with closed := true }) := by
  induction ops generalizing s w with
  | nil =>
    obtain ⟨s', hr⟩ := run_perform_close hw s
    refine ⟨s', ?_⟩
    simp only [List.nil_append, Sender.performAll, Fiber.run_bind, hr, Fiber.run_pure]
    rfl
  | cons op ops ih =>
    obtain ⟨s₁, hr, hm, hx₁⟩ := run_perform hw hx (hops op List.mem_cons_self)
    obtain ⟨s', hr'⟩ := ih (healthy_emit s.mode hw op.frame.toList) hx₁
      fun o ho => hops o (List.mem_cons_of_mem _ ho)
    refine ⟨s', ?_⟩
    rw [List.cons_append, Sender.performAll]
    simp only [Fiber.run_bind, hr, hr', Fiber.run_pure, List.map_cons]
    have hfm : (op :: (ops ++ [Op.close])).filterMap Op.frame =
        op.frame.toList ++ (ops ++ [Op.close]).filterMap Op.frame := by
      rw [List.filterMap_cons]
      cases op.frame <;> rfl
    rw [hm, ← emit_append, hfm]

end Sending

/-! ## Receiving -/

variable {cfg : Config}

theorem accepts_sealed {oc : OpCode} {payload : List UInt8} (hoc : oc.isReserved = false)
    (hctl : oc.isControl = true → payload.length ≤ maxCtrlBodySize)
    (hlen : payload.length ≤ cfg.maxDataSize.toNat) (mode : Mode) (mask : UInt32) :
    cfg.codec.Accepts (Outgoing.sealed mode mask ⟨Header.new oc, payload⟩) := by
  cases mode with
  | client =>
    exact ⟨hoc, fun _ => rfl, hctl, fun h => (by cases h), fun h => (by cases h),
      fun h => (by cases h), hlen, fun h => (by cases h)⟩
  | server =>
    exact ⟨hoc, fun _ => rfl, hctl, fun h => (by cases h), fun h => (by cases h),
      fun h => (by cases h), hlen, fun _ => rfl⟩

/-- **A written frame is a frame of the peer's stream.** -/
theorem exists_frame (oc : OpCode) (payload : List UInt8) (hoc : oc.isReserved = false)
    (hctl : oc.isControl = true → payload.length ≤ maxCtrlBodySize)
    (hlen : payload.length ≤ cfg.maxDataSize.toNat) (mode : Mode) (mask : UInt32) :
    ∃ f : Frame cfg, f.bytes = Outgoing.bytes mode mask ⟨Header.new oc, payload⟩ ∧
      f.payload = payload ∧ f.header.opcode = oc ∧ f.header.fin = true := by
  have hseal : (Outgoing.sealed mode mask ⟨Header.new oc, payload⟩).opcode = oc ∧
      (Outgoing.sealed mode mask ⟨Header.new oc, payload⟩).fin = true ∧
      (Outgoing.sealed mode mask ⟨Header.new oc, payload⟩).payloadLen = payload.length := by
    cases mode <;> exact ⟨rfl, rfl, rfl⟩
  refine ⟨.ofHeader _ (accepts_sealed hoc hctl hlen mode mask)
    (applyMask (Outgoing.sealed mode mask ⟨Header.new oc, payload⟩) payload) ?_, rfl, ?_,
    hseal.1, hseal.2.1⟩
  · rw [length_applyMask, hseal.2.2]
  · exact applyMask_applyMask _ _

theorem closeAnswer_normal :
    closeAnswer (beBytes 2 1000) = .ok (Header.new .close, some ⟨1000, some ""⟩) := by
  rfl

namespace Feed

variable {E : Type} [Extension E]

theorem receives_cons {st₀ st st' : Feed E} {s p rest x : List UInt8} (f : Frame cfg) {i : Incoming}
    {replies : List Outgoing} {outs : List Outcome}
    (hsteps : Steps cfg st₀ (.start []) st (.start []))
    (hret : st.step cfg (.start []) = .ret (.ok i) st' x) (hs : s = p ++ (f.bytes ++ rest))
    (hrest : st'.stream = rest) (hsent : st'.sent = st₀.sent ++ replies)
    (houts : Receives cfg s st' outs) :
    Receives cfg s st₀ (⟨.ok i, x, replies, p.length + f.bytes.length⟩ :: outs) :=
  ⟨st', .of_steps hsteps (.of_ret hret), hsent, fun _ => by rw [hrest]; exact drop_prefix hs, houts⟩

theorem step_single (hx : cfg.hasExtensions = false) (f : Frame cfg) {st : Feed E}
    {rest : List UInt8} (hst : st.stream = f.bytes ++ rest) (ho : st.isClosed = false)
    (hoc : f.header.opcode = .text ∨ f.header.opcode = .binary) (hfin : f.header.fin = true)
    (hmax : f.header.payloadLen ≤ cfg.maxMessageSize.toNat) :
    st.step cfg (.start []) = .ret (.ok (.data (.ofOpCode f.header.opcode f.payload.length)))
      { st with stream := rest } f.payload := by
  obtain ⟨hctl, hne⟩ := isControl_of_text_or_binary hoc
  have hp : place none f.header = .single := by simp [place, hne, hfin]
  have hsub : wrappingSub f.payload.length 0 = f.payload.length := by
    rw [wrappingSub, if_pos (Nat.zero_le _), Nat.sub_zero]
  rw [step_data f hst ho hctl _ (by simp only [Locals.start]; omega), onData]
  simp only [Locals.start, hp, decode_plain hx, finish, List.nil_append, List.length_nil, hsub]

/-- The calls from `st₀` on amount to what was sent by the operations `ops`; the first one has
already answered with `pending`. -/
def ReceivesOps (cfg : Config) (s : List UInt8) (st₀ : Feed E) (pending : List Outgoing)
    (ops : List Op) : Prop :=
  ∃ outs, Receives cfg s st₀ outs ∧
    (outs.map fun o => (o.result, o.appended)) = ops.filterMap Op.received ∧
    outs.flatMap Outcome.replies = pending ++ ops.filterMap Op.answer

theorem ReceivesOps.cons {st₀ st : Feed E} {s p rest x : List UInt8} (f : Frame cfg) {i : Incoming}
    {pending : List Outgoing} {op : Op} {ops : List Op}
    (hsteps : Steps cfg st₀ (.start []) st (.start []))
    (hret : st.step cfg (.start []) = .ret (.ok i) { st with stream := rest } x)
    (hs : s = p ++ (f.bytes ++ rest)) (hsent : st.sent = st₀.sent ++ pending)
    (hrec : op.received = some (.ok i, x)) (hans : op.answer = none)
    (h : ReceivesOps cfg s { st with stream := rest } [] ops) :
    ReceivesOps cfg s st₀ pending (op :: ops) := by
  obtain ⟨outs, h₁, h₂, h₃⟩ := h
  refine ⟨_, receives_cons f hsteps hret hs rfl hsent h₁, ?_, ?_⟩
  · rw [List.map_cons, h₂, List.filterMap_cons, hrec]
  · rw [List.flatMap_cons, h₃, List.filterMap_cons, hans]
    rfl

theorem receivesOps_close {mode : Mode} (hclose : Op.close.Fits cfg) {s p : List UInt8}
    {ms : List UInt32} {st₀ st : Feed E} {pending : List Outgoing}
    (hsteps : Steps cfg st₀ (.start []) st (.start [])) (ho : st.isClosed = false)
    (hs : s = p ++ st.stream) (hsent : st.sent = st₀.sent ++ pending)
    (hst : st.stream = Outgoing.encode mode ms ([Op.close].filterMap Op.frame)) :
    ReceivesOps cfg s st₀ pending [.close] := by
  obtain ⟨f, hbytes, hpay, hoc, -⟩ := exists_frame .close (beBytes 2 1000) rfl
    (fun _ => by decide) (hclose _ rfl).1 mode (ms.headD 0)
  have hstream : st.stream = f.bytes ++ [] := by
    rw [hst, hbytes]
    rfl
  have hstep : st.step cfg (.start []) = .ret (.ok (.closed ⟨1000, some ""⟩))
      { { st with stream := [] }.reply ⟨Header.new .close, beBytes 2 1000⟩ with isClosed := true }
      [] := by
    rw [step_control f hstream ho (by rw [hoc]; rfl), onControl, hoc, hpay, closeAnswer_normal]
    rfl
  rw [hstream] at hs
  have hsent' : st.sent ++ [⟨Header.new .close, beBytes 2 1000⟩] =
      st₀.sent ++ (pending ++ [⟨Header.new .close, beBytes 2 1000⟩]) := by
    rw [hsent, List.append_assoc]
  have hnil : Receives cfg s { { st with stream := [] }.reply
    ⟨Header.new .close, beBytes 2 1000⟩ with isClosed := true } [] := trivial
  refine ⟨_, receives_cons f hsteps hstep hs rfl hsent' hnil, rfl, ?_⟩
  rw [List.flatMap_cons, List.flatMap_nil, List.append_nil]
  rfl

/-- **The frames of operations are received one by one.** The call under way began at `st₀`. -/
theorem receives_ops (hx : cfg.hasExtensions = false) (mode : Mode) {ops : List Op}
    (hops : ∀ op ∈ ops, op ≠ .close ∧ op.Fits cfg) (hclose : Op.close.Fits cfg)
    {s p : List UInt8} {ms : List UInt32} {st₀ st : Feed E} {pending : List Outgoing}
    (hsteps : Steps cfg st₀ (.start []) st (.start [])) (ho : st.isClosed = false)
    (hs : s = p ++ st.stream) (hsent : st.sent = st₀.sent ++ pending)
    (hst : st.stream = Outgoing.encode mode ms ((ops ++ [Op.close]).filterMap Op.frame)) :
    ReceivesOps cfg s st₀ pending (ops ++ [.close]) := by
  induction ops generalizing p ms st₀ st pending with
  | nil => exact receivesOps_close hclose hsteps ho hs hsent hst
  | cons op ops ih =>
    obtain ⟨hne, hfits⟩ := hops op List.mem_cons_self
    have hops' := fun o ho => hops o (List.mem_cons_of_mem op ho)
    rw [List.cons_append, List.filterMap_cons] at hst
    rw [List.cons_append]
    -- what is left of the stream after the frame of `op`
    let rest := Outgoing.encode mode ms.tail ((ops ++ [Op.close]).filterMap Op.frame)
    have hdata : ∀ oc d, oc = .text ∨ oc = .binary → op.frame = some ⟨Header.new oc, d⟩ →
        op.received = some (.ok (.data (.ofOpCode oc d.length)), d) → op.answer = none →
        ReceivesOps cfg s st₀ pending (op :: (ops ++ [.close])) := by
      intro oc d hoc h₁ h₂ h₃
      obtain ⟨hctl, hne'⟩ := isControl_of_text_or_binary hoc
      have hres : oc.isReserved = false := by rcases hoc with rfl | rfl <;> rfl
      obtain ⟨hl₁, hl₂⟩ := hfits _ h₁
      obtain ⟨f, hbytes, hpay, hoc', hfin⟩ := exists_frame oc d hres
        (fun h => by rw [hctl] at h; cases h) hl₁ mode (ms.headD 0)
      rw [h₁] at hst
      have hstream : st.stream = f.bytes ++ rest := by rw [hst, hbytes]; rfl
      rw [hstream] at hs
      have hstep := step_single hx f hstream ho (hoc'.symm ▸ hoc) hfin
        (by rw [← f.length_payload, hpay]; exact hl₂ hctl)
      rw [hoc', hpay] at hstep
      exact .cons f hsteps hstep hs hsent h₂ h₃
        (ih hops' (.refl _ _) ho (by rw [hs, List.append_assoc]) (by simp) rfl)
    cases op with
    | sendText data => exact hdata .text _ (Or.inl rfl) rfl rfl rfl
    | sendTextOwned data => exact hdata .text _ (Or.inl rfl) rfl rfl rfl
    | sendBinary data => exact hdata .binary _ (Or.inr rfl) rfl rfl rfl
    | sendBinaryMut data => exact hdata .binary _ (Or.inr rfl) rfl rfl rfl
    | sendPing data =>
      obtain ⟨f, hbytes, hpay, hoc, hfin⟩ := exists_frame .ping data.bytes rfl
        (fun _ => data.length_le) (hfits _ rfl).1 mode (ms.headD 0)
      have hstream : st.stream = f.bytes ++ rest := by rw [hst, hbytes]; rfl
      rw [hstream] at hs
      have hstep : st.step cfg (.start []) =
          .again ({ st with stream := rest }.reply ⟨Header.new .pong, data.bytes⟩) (.start []) := by
        rw [step_control f hstream ho (by rw [hoc]; rfl), onControl, hoc, hpay]
      have hsent' : st.sent ++ [⟨Header.new .pong, data.bytes⟩] =
          st₀.sent ++ (pending ++ [⟨Header.new .pong, data.bytes⟩]) := by
        rw [hsent, List.append_assoc]
      obtain ⟨outs, h₁, h₂, h₃⟩ := ih hops' (hsteps.trans (.single hstep)) ho
        (by rw [hs, List.append_assoc]; rfl) hsent' rfl
      refine ⟨outs, h₁, h₂, ?_⟩
      rw [h₃, List.append_assoc]
      rfl
    | sendPong data =>
      obtain ⟨f, hbytes, hpay, hoc, hfin⟩ := exists_frame .pong data.bytes rfl
        (fun _ => data.length_le) (hfits _ rfl).1 mode (ms.headD 0)
      have hstream : st.stream = f.bytes ++ rest := by rw [hst, hbytes]; rfl
      rw [hstream] at hs
      have hstep : st.step cfg (.start []) =
          .ret (.ok (.pong data.bytes)) { st with stream := rest } [] := by
        rw [step_control f hstream ho (by rw [hoc]; rfl), onControl, hoc, hpay]
        rfl
      exact .cons f hsteps hstep hs hsent rfl rfl
        (ih hops' (.refl _ _) ho (by rw [hs, List.append_assoc]) (by simp) rfl)
    | flush => exact ih hops' hsteps ho hs hsent hst
    | close => exact absurd rfl hne

end Feed

/-- **Round trip.** A sender without extensions performs operations and then closes. Its peer, a
ready receiver without extensions, gets the bytes from the wire, split in any way. All operations
succeed. The peer's calls, whatever vectors they are given, return the data messages and pongs in
order with their kinds and lengths, append their payloads, answer each ping with a pong of the same
payload, and at last return `Closed` with the code 1000. -/
theorem roundTrip {E : Type} [Extension E] {s : Sender} {w : World (List E)}
    (hx : s.hasExtensions = false) (hw : w.Healthy) (hwire : w.wire = []) {r : Receiver}
    {v : World (List E)} (hr : r.Ready v) {ops : List Op}
    (hops : ∀ op ∈ ops, op ≠ .close ∧ op.Fits r.config) (hclose : Op.close.Fits r.config)
    (hstream : r.stream = ((s.performAll (ops ++ [.close])).run w).2.wire) :
    (∃ s', ((s.performAll (ops ++ [.close])).run w).1 =
        some ((ops ++ [Op.close]).map fun _ => .ok (), s')) ∧
      ∀ ms : List (List UInt8), ms.length = ((ops ++ [Op.close]).filterMap Op.received).length →
        ∃ outs, r.Receives r.stream v ms outs ∧
          (outs.map fun o => (o.result, o.appended)) = (ops ++ [Op.close]).filterMap Op.received ∧
          outs.flatMap Outcome.replies = (ops ++ [Op.close]).filterMap Op.answer := by
  obtain ⟨s', hrun⟩ := run_performAll hw hx fun op hop => (hops op hop).1
  rw [hrun] at hstream ⊢
  refine ⟨⟨s', rfl⟩, fun ms hms => ?_⟩
  have hst : (Feed.ofReceiver r ([] : List E)).stream =
      Outgoing.encode s.mode w.randoms ((ops ++ [Op.close]).filterMap Op.frame) := by
    refine hstream.trans ?_
    simp only [emit, hwire, List.nil_append]
  obtain ⟨outs, h₁, h₂, h₃⟩ := Feed.receives_ops hr.hasExtensions s.mode hops hclose
    (.refl _ _) hr.isClosed (p := []) rfl (List.append_nil _).symm hst
  refine ⟨outs, Feed.sim_receives hr h₁ ?_, h₂, h₃⟩
  rw [hms, ← h₂, List.length_map]

/-- A client sends a text, a ping and binary data, and closes. -/
theorem roundTrip_client :
    let s := (Builder.new (E := Empty) [] .client).finish.1
    let w := (Builder.new (E := Empty) [] .client).world [0xA1B2C3D4, 7]
    let ops := [.sendText "Hi", .sendPing ⟨[1, 2, 3], by decide⟩, .sendBinaryMut [0, 255]]
    let b : Builder Empty := Builder.new
      [.data (((s.performAll (ops ++ [.close])).run w).2.wire)] .server
    (∃ s', ((s.performAll (ops ++ [.close])).run w).1 =
        some ((ops ++ [Op.close]).map fun _ => .ok (), s')) ∧
      ∀ ms : List (List UInt8), ms.length = ((ops ++ [Op.close]).filterMap Op.received).length →
        ∃ outs, b.finish.2.1.Receives b.finish.2.1.stream (b.world []) ms outs ∧
          (outs.map fun o => (o.result, o.appended)) = (ops ++ [Op.close]).filterMap Op.received ∧
          outs.flatMap Outcome.replies = (ops ++ [Op.close]).filterMap Op.answer := by
  intro s w ops b
  have hb : b.finish.2.1.Ready (b.world []) := ready_finish rfl clean_nil.data []
  refine roundTrip rfl ⟨rfl, rfl⟩ rfl hb ?_ ?_ ?_
  · decide +kernel
  · decide +kernel
  · simp [b, Builder.finish, Builder.new, Receiver.stream]

end Soketto
