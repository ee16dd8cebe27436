import Soketto.Lib.Text
import Soketto.Listening

/-!
# An echo server

The loop of the example programs `autobahn_server` and `autobahn_client`, which send each message
back that they receive.

* `Autobahn.echo`: the loop; `Stop`: why it is left; `serverExit`: what the server makes of it.
* `Feed.Receives.resend`: what was sent before a call changes nothing.
* `echoed`: what the loop amounts to, as a function of the outcomes of calls on the stream.
* **`echo_run`**: with any bytes received, the loop ends, and writes the answers and the echoes in the
  order of the frames they belong to.
* `LeavesPart`: part of a message is left in the vector; **`echo_panics_iff`**: then an assertion of
  the loop fails.
-/

set_option autoImplicit false

namespace Soketto

open Incremental Chunked Text

/-! ## The loop -/

/-- Why the loop is left. -/
inductive Stop where
  | received (e : Error)
  | sent (e : Error)
  | notUtf8 (bytes : List UInt8)
  | panicked
  deriving DecidableEq

/-- How a program ends. -/
inductive Exit where
  | ok
  | connection (e : Error)
  | panic
  deriving DecidableEq

namespace Autobahn

section Fibers

variable {E : Type}

/-- Send, and then flush. -/
def sendAndFlush (send : Fiber (List E) (Option Sent)) :
    Fiber (List E) (Option (Except Error Sender)) := do
  match ← send with
  | none => return none
  | some ⟨.error e, _⟩ => return some (.error e)
  | some ⟨.ok (), sender⟩ =>
    match ← Sender.flush with
    | .error e => return some (.error e)
    | .ok () => return some (.ok sender)

variable [Extension E]

/-- Send a message back. -/
def reply (sender : Sender) (message : List UInt8) :
    Data → Fiber (List E) (Option (Except Stop Sender))
  | .binary n =>
    if n ≠ message.length then return some (.error .panicked)
    else return (← sendAndFlush (sender.sendBinaryMut message)).map (Except.mapError .sent)
  | .text n =>
    if n ≠ message.length then return some (.error .panicked)
    else
      match fromUtf8 message with
      | some txt => return (← sendAndFlush (sender.sendText txt)).map (Except.mapError .sent)
      | none => return some (.error (.notUtf8 message))

/-- Rounds of the loop. -/
def echoLoop : ℕ → Sender → Receiver → Fiber (List E) (Option Stop)
  | 0, _, _ => return none
  | fuel + 1, sender, receiver => do
    match ← receiver.receiveData [] with
    | none => return none
    | some ⟨.error e, _, _⟩ => return some (.received e)
    | some ⟨.ok data, receiver, message⟩ =>
      match ← reply sender message data with
      | none => return none
      | some (.error stop) => return some stop
      | some (.ok sender) => echoLoop fuel sender receiver

/-- Receive messages, and send each of them back. -/
def echo (sender : Sender) (receiver : Receiver) : Fiber (List E) (Option Stop) :=
  echoLoop (receiver.remaining + 1) sender receiver

end Fibers

/-- How the connection of a server ends: it goes on with the next one, unless sending fails. -/
def serverExit : Stop → Exit
  | .received _ => .ok
  | .sent e => .connection e
  | .notUtf8 _ => .ok
  | .panicked => .panic

end Autobahn

/-! ## What was sent before -/

/-- The state with the frames `pre` sent before. -/
def Feed.after {E : Type} (pre : List Outgoing) (st : Feed E) : Feed E :=
  { st with sent := pre ++ st.sent }

/-- The same step, with the frames `pre` sent before. -/
def Step.after {E : Type} (pre : List Outgoing) : Step E → Step E
  | .again st l => .again (st.after pre) l
  | .ret result st message => .ret result (st.after pre) message

namespace Feed

variable {E : Type} {cfg : Config}

theorem onControl_after (pre : List Outgoing) (st : Feed E) (h : Header) (payload : List UInt8)
    (l : Locals) : (st.after pre).onControl h payload l = (st.onControl h payload l).after pre := by
  have hreply : ∀ f, (st.after pre).reply f = (st.reply f).after pre := fun f => by
    simp only [Feed.after, Feed.reply, List.append_assoc]
  unfold onControl
  cases h.opcode with
  | ping => exact congrArg (Step.again · l) (hreply _)
  | close =>
    rcases closeAnswer payload with e | ⟨answer, _ | r⟩ <;> dsimp only
    · rfl
    · rw [hreply]
      rfl
    · rw [hreply]
      rfl
  | _ => rfl

variable [Extension E]

theorem onData_after (pre : List Outgoing) (st : Feed E) (h : Header) (l : Locals) :
    (st.after pre).onData cfg h l = (st.onData cfg h l).after pre := by
  have hdecode : ∀ h m, (st.after pre).decode cfg h m = st.decode cfg h m := fun _ _ => rfl
  have hfinish : ∀ (d : Decoded (List E)) oc l,
      (st.after pre).finish d oc l = (st.finish d oc l).after pre := fun d oc l => by
    unfold Feed.finish
    rcases d.result with e | u <;> rfl
  unfold onData
  cases place l.firstFragmentOpcode h with
  | unexpected => rfl
  | intermediate => rfl
  | initial =>
    dsimp only
    rw [hdecode]
    rcases (st.decode cfg h l.message).result with e | u <;> rfl
  | last oc => exact hfinish _ _ _
  | single => exact hfinish _ _ _

/-- **What was sent before changes nothing.** -/
theorem step_after (pre : List Outgoing) (st : Feed E) (l : Locals) :
    (st.after pre).step cfg l = (st.step cfg l).after pre := by
  unfold step
  rw [show (st.after pre).isClosed = st.isClosed from rfl,
    show (st.after pre).stream = st.stream from rfl]
  split_ifs
  · rfl
  rcases cfg.codec.decodeHeader.run st.stream with e | ⟨h, off⟩ | n
  · rfl
  · unfold onFrame
    dsimp only
    split_ifs
    · rfl
    · exact onControl_after pre { st with stream := (st.stream.drop off).drop h.payloadLen } _ _ _
    · rfl
    · rfl
    · exact onData_after pre { st with stream := (st.stream.drop off).drop h.payloadLen } _ _
  · rfl

theorem Steps.after {st st' : Feed E} {l l' : Locals} (h : Steps cfg st l st' l')
    (pre : List Outgoing) : Steps cfg (st.after pre) l (st'.after pre) l' := by
  induction h with
  | refl => exact .refl _ _
  | head h _ ih => exact .head (by rw [step_after, h]; rfl) ih

theorem Runs.after {st st' : Feed E} {l : Locals} {result : Except Error Incoming}
    {m : List UInt8} (h : Runs cfg st l result st' m) (pre : List Outgoing) :
    Runs cfg (st.after pre) l result (st'.after pre) m := by
  obtain ⟨st₁, l₁, hs, hr⟩ := h
  exact ⟨st₁.after pre, l₁, hs.after pre, by rw [step_after, hr]; rfl⟩

theorem Runs.resend {st st' : Feed E} {l : Locals} {result : Except Error Incoming}
    {m : List UInt8} {rs : List Outgoing} (h : Runs cfg st l result st' m)
    (hsent : st'.sent = st.sent ++ rs) (pre : List Outgoing) :
    Runs cfg { st with sent := pre } l result { st' with sent := pre ++ rs } m := by
  have hstart : ∀ pre, ({ st with sent := [] } : Feed E).after pre = { st with sent := pre } :=
    fun pre => by simp only [Feed.after, List.append_nil]
  obtain ⟨result', st₀, m', h₀⟩ := exists_runs cfg { st with sent := [] } l
  have hold := h₀.after st.sent
  have hnew := h₀.after pre
  rw [hstart] at hold hnew
  obtain ⟨rfl, rfl, rfl⟩ := h.unique hold
  obtain rfl := List.append_cancel_left hsent
  exact hnew

theorem Receives.resend {s : List UInt8} {st : Feed E} {outs : List Outcome}
    (h : Receives cfg s st outs) (pre : List Outgoing) :
    Receives cfg s { st with sent := pre } outs := by
  induction outs generalizing st pre with
  | nil => trivial
  | cons o os ih =>
    obtain ⟨st', hrun, hsent, hpos, hrest⟩ := h
    refine ⟨_, hrun.resend hsent pre, rfl, hpos, ?_⟩
    rcases hres : o.result with e | i <;> rw [hres] at hrest
    · exact hrest
    · exact ih hrest _

end Feed

/-! ## What is echoed -/

/-- The frame that answers a message, or why there is none. -/
def echoOf (message : List UInt8) : Data → Except Stop Outgoing
  | .binary n =>
    if n ≠ message.length then .error .panicked else .ok ⟨Header.new .binary, message⟩
  | .text n =>
    if n ≠ message.length then .error .panicked
    else if (fromUtf8 message).isSome then .ok ⟨Header.new .text, message⟩
    else .error (.notUtf8 message)

/-- What the loop amounts to: why it ends, and the frames it sends. Calls before have left `acc` in
the vector. -/
def echoed : List UInt8 → List Outcome → Option Stop × List Outgoing
  | _, [] => (none, [])
  | acc, o :: os =>
    match o.result with
    | .error e => (some (.received e), o.replies)
    | .ok (.data d) =>
      match echoOf (acc ++ o.appended) d with
      | .error stop => (some stop, o.replies)
      | .ok f => ((echoed [] os).1, o.replies ++ f :: (echoed [] os).2)
    | .ok _ => ((echoed (acc ++ o.appended) os).1, o.replies ++ (echoed (acc ++ o.appended) os).2)

/-! ## The run -/

namespace Feed

variable {E : Type} [Extension E] {cfg : Config} {st st' : Feed E} {l : Locals} {m : List UInt8}
  {d : Data}

theorem onData_data {header : Header}
    (h : st.onData cfg header l = .ret (.ok (.data d)) st' m) :
    st'.isClosed = st.isClosed ∧ d.len = wrappingSub m.length l.messageLen := by
  have hfinish : ∀ {dec : Decoded (List E)} {oc : OpCode},
      st.finish dec oc l = .ret (.ok (.data d)) st' m →
        st'.isClosed = st.isClosed ∧ d.len = wrappingSub m.length l.messageLen := by
    intro dec oc h
    unfold Feed.finish at h
    rcases hres : dec.result with e | u <;> rw [hres] at h <;> cases h
    refine ⟨rfl, ?_⟩
    unfold Data.ofOpCode
    split_ifs <;> rfl
  unfold onData at h
  split at h
  · cases h
  · cases h
  · dsimp only at h
    split at h <;> cases h
  · exact hfinish h
  · exact hfinish h

omit [Extension E] in
theorem onControl_data {header : Header} {payload : List UInt8} :
    st.onControl header payload l ≠ .ret (.ok (.data d)) st' m := by
  intro h
  unfold onControl at h
  cases hoc : header.opcode <;> rw [hoc] at h
  case close =>
    dsimp only at h
    rcases hca : closeAnswer payload with e | ⟨answer, _ | r⟩ <;> rw [hca] at h <;> cases h
  all_goals cases h

/-- **A step that returns data** leaves the connection open, and counts the bytes of the message. -/
theorem step_ret_data (h : st.step cfg l = .ret (.ok (.data d)) st' m) :
    st'.isClosed = false ∧ d.len = wrappingSub m.length l.messageLen := by
  unfold step at h
  split_ifs at h with hc
  · cases h
  rcases hd : cfg.codec.decodeHeader.run st.stream with e | ⟨header, off⟩ | n <;> rw [hd] at h
  · cases h
  · dsimp only [onFrame] at h
    split_ifs at h
    · cases h
    · exact absurd h onControl_data
    · cases h
    · cases h
    · obtain ⟨h₁, h₂⟩ := onData_data h
      exact ⟨h₁.trans (Bool.eq_false_iff.mpr hc), h₂⟩
  · cases h

theorem Runs.isClosed_of_data (h : Runs cfg st l (.ok (.data d)) st' m) : st'.isClosed = false := by
  obtain ⟨st₁, l₁, -, hr⟩ := h
  exact (step_ret_data hr).1

end Feed

namespace Autobahn

variable {E : Type} [Extension E]

/-- The rest of the loop, once `receive_data` has returned. -/
def resume (fuel : ℕ) (sender : Sender) :
    Option (Received Data) → Fiber (List E) (Option Stop)
  | none => return none
  | some ⟨.error e, _, _⟩ => return some (.received e)
  | some ⟨.ok data, receiver, message⟩ => do
    match ← reply sender message data with
    | none => return none
    | some (.error stop) => return some stop
    | some (.ok sender) => echoLoop fuel sender receiver

theorem run_echoLoop (fuel : ℕ) (sender : Sender) (receiver : Receiver) (w : World (List E)) :
    (echoLoop (fuel + 1) sender receiver).run w =
      (receiver.receiveData [] >>= resume fuel sender).run w := by
  rw [echoLoop, Fiber.run_bind, Fiber.run_bind]
  rcases (receiver.receiveData []).run w with ⟨_ | ⟨e | d, r', m⟩, w'⟩ <;> rfl

theorem run_sendAndFlush {w : World (List E)} (hw : w.Healthy) {s : Sender}
    (hx : s.hasExtensions = false) {op : Op} (hop : op ≠ .close) :
    ∃ s', (sendAndFlush (s.perform op)).run w = (some (.ok s'), emit s.mode op.frame.toList w) ∧
      s'.mode = s.mode ∧ s'.hasExtensions = false := by
  obtain ⟨s', hrun, hm, hx'⟩ := run_perform hw hx hop
  refine ⟨s', ?_, hm, hx'⟩
  rw [sendAndFlush]
  simp only [Fiber.run_bind, hrun, Sender.flush, run_flushWriter (healthy_emit s.mode hw _),
    Fiber.run_pure]

/-- **A message is sent back.** -/
theorem run_reply {w : World (List E)} (hw : w.Healthy) {s : Sender} (hx : s.hasExtensions = false)
    (m : List UInt8) (d : Data) :
    (∃ stop, echoOf m d = .error stop ∧ (reply s m d).run w = (some (.error stop), w)) ∨
      ∃ f s', echoOf m d = .ok f ∧
        (reply s m d).run w = (some (.ok s'), emit s.mode [f] w) ∧ s'.mode = s.mode ∧
        s'.hasExtensions = false := by
  cases d with
  | binary n =>
    rw [echoOf, reply]
    split_ifs with hn
    · exact Or.inl ⟨_, rfl, rfl⟩
    · obtain ⟨s', hrun, hm, hx'⟩ := run_sendAndFlush hw hx
        (show Op.sendBinaryMut m ≠ .close by simp)
      refine Or.inr ⟨_, s', rfl, ?_, hm, hx'⟩
      rw [show s.sendBinaryMut m = s.perform (.sendBinaryMut m) from rfl, Fiber.run_bind, hrun]
      rfl
  | text n =>
    rw [echoOf, reply]
    split_ifs with hn htxt
    · exact Or.inl ⟨_, rfl, rfl⟩
    · obtain ⟨txt, htxt⟩ := Option.isSome_iff_exists.mp htxt
      obtain ⟨s', hrun, hm, hx'⟩ := run_sendAndFlush hw hx
        (show Op.sendText txt ≠ .close by simp)
      have hbytes : txt.toUTF8.toList = m := (toList_toUTF8 txt).trans (utf8_of_fromUtf8 htxt)
      refine Or.inr ⟨_, s', rfl, ?_, hm, hx'⟩
      rw [htxt]
      dsimp only
      rw [show s.sendText txt = s.perform (.sendText txt) from rfl, Fiber.run_bind, hrun, Op.frame,
        hbytes]
      rfl
    · rw [Option.not_isSome_iff_eq_none.mp htxt]
      exact Or.inl ⟨_, rfl, rfl⟩

/-- **The rest of the loop** writes the answers and the echoes. -/
theorem run_resume {r₀ : Receiver} {w₀ : World (List E)} (hx : r₀.hasExtensions = false)
    (hw : w₀.Healthy) {s : List UInt8} {outs : List Outcome} {st : Feed E}
    (hr : Feed.Receives r₀.config s st outs) (hend : Feed.Fails outs) {r : Receiver}
    {w : World (List E)} (hT : Feed.Tracks r₀ w₀ r w st) {sender : Sender}
    (hmode : sender.mode = r₀.mode) (hsx : sender.hasExtensions = false) {fuel rounds : ℕ}
    (hfuel : r.remaining < fuel) (hrounds : r.remaining ≤ rounds) (acc : List UInt8) :
    ∃ (stop : Stop) (st' : Feed E), (r.receiveDataLoop fuel acc >>= resume rounds sender).run w =
        (some stop, st'.world r₀.mode w₀) ∧
      (echoed acc outs).1 = some stop ∧ st'.sent = st.sent ++ (echoed acc outs).2 := by
  induction outs generalizing st r w sender fuel rounds acc with
  | nil => exact absurd hend Feed.not_fails_nil
  | cons o os ih =>
    obtain ⟨fuel, rfl⟩ : ∃ n, fuel = n + 1 := ⟨fuel - 1, by omega⟩
    obtain ⟨st', hrun, hsent, -, hrest⟩ := hr
    rcases Feed.sim_receive (hrun.under hx acc) hT with hb | ⟨r', w', hout, hT', hw'⟩
    · exact absurd hw hb.1
    rw [Receiver.receiveDataLoop]
    simp only [Fiber.run_bind, hout]
    have hlt : InSync o.result → r'.remaining + 2 ≤ r.remaining := fun hsync => by
      have hle := hrun.length_le hsync
      rwa [← hT.stream, ← (hT' hsync).stream, r.length_stream, r'.length_stream] at hle
    rcases hres : o.result with e | d | p | reason <;> rw [hres] at hrest
    · refine ⟨.received e, st', ?_, ?_, ?_⟩
      · rw [← hw' hw]
        rfl
      · rw [echoed, hres]
      · rw [echoed, hres]
        exact hsent
    · rw [hres] at hrun hT' hlt
      have hT'' := hT' trivial
      have hopen := hrun.isClosed_of_data
      have hmode' : sender.mode = r'.mode :=
        hmode.trans (congrArg Config.mode hT''.config).symm
      rw [echoed, hres]
      simp only [resume, Fiber.run_bind, Fiber.run_pure]
      rcases run_reply (hT''.healthy hw hopen) hsx (acc ++ o.appended) d with
        ⟨stop, hecho, hreply⟩ | ⟨f, s', hecho, hreply, hm, hsx'⟩
      · rw [hecho, hreply, ← hsent, hw' hw]
        exact ⟨stop, st', rfl, rfl, rfl⟩
      · rw [hecho, hreply]
        have hrem := hlt trivial
        obtain ⟨rounds, rfl⟩ : ∃ n, rounds = n + 1 := ⟨rounds - 1, by omega⟩
        have hrounds' : r'.remaining ≤ rounds := by omega
        obtain ⟨stop, st'', hrun', hstop, hsent'⟩ := ih (hrest.resend _) (hend.tail hres)
          (hT''.reply f (show (emit sender.mode [f] w').shared = w'.shared from rfl)
            fun _ => by rw [hmode'])
          (hm.trans hmode) hsx' (Nat.lt_succ_self _) hrounds' []
        refine ⟨stop, st'', ?_, hstop, ?_⟩
        · exact (run_echoLoop rounds s' r' _).trans hrun'
        · rw [hsent', hsent]
          simp only [List.append_assoc, List.singleton_append]
    all_goals
      rw [hres] at hT' hlt
      have hrem := hlt trivial
      have hfuel' : r'.remaining < fuel := by omega
      have hrounds' : r'.remaining ≤ rounds := by omega
      obtain ⟨stop, st'', hrun', hstop, hsent'⟩ := ih hrest (hend.tail hres) (hT' trivial) hmode hsx
        hfuel' hrounds' (acc ++ o.appended)
      refine ⟨stop, st'', ?_, by rw [echoed, hres]; exact hstop, ?_⟩
      · rw [Fiber.run_bind] at hrun'
        exact hrun'
      · rw [hsent', hsent, echoed, hres, List.append_assoc]

theorem run_echo {b : Builder E} (hx : b.extensions = []) (hc : Clean b.socket)
    (randoms : List UInt32) {outs : List Outcome}
    (hr : Feed.Receives b.finish.2.1.config b.finish.2.1.stream
      (Feed.ofReceiver b.finish.2.1 ([] : List E)) outs) (hend : Feed.Fails outs) :
    ∃ stop w', (echo b.finish.1 b.finish.2.1).run (b.world randoms) = (some stop, w') ∧
      (echoed [] outs).1 = some stop ∧
      w'.wire = Outgoing.encode b.mode randoms (echoed [] outs).2 := by
  have hready := ready_finish hx hc randoms
  have hT : Feed.Tracks b.finish.2.1 (b.world randoms) b.finish.2.1 (b.world randoms)
      (Feed.ofReceiver b.finish.2.1 ([] : List E)) :=
    hready.shared ▸ .start hready.clean hready.isClosed _
  obtain ⟨stop, st', hrun, hstop, hsent⟩ := run_resume hready.hasExtensions hready.healthy hr hend
    hT (show b.finish.1.mode = b.finish.2.1.mode from rfl) (by simp only [Builder.finish, hx]; rfl) (Nat.lt_succ_self _)
    (le_refl _) []
  have hwire : (st'.world b.mode (b.world randoms)).wire = _ := Feed.wire_world hsent
  refine ⟨stop, _, (run_echoLoop _ _ _ _).trans hrun, hstop, hwire.trans ?_⟩
  simp only [Feed.world, Feed.ofReceiver, emit_nil]
  rfl

/-- **The echo server.** Sender and receiver of a connection without extensions run the loop on any
bytes received, and nothing fails to be written. Calls of `receive` on these bytes would amount to
`outs`. The loop ends, and what it sends is what `outs` amounts to. -/
theorem echo_run {b : Builder E} (hx : b.extensions = []) (hc : Clean b.socket)
    (randoms : List UInt32) :
    ∃ (outs : List Outcome) (stop : Stop) (fs : List Outgoing),
      (∀ ms : List (List UInt8), ms.length = outs.length →
        b.finish.2.1.Receives b.finish.2.1.stream (b.world randoms) ms outs) ∧
      (∃ o ∈ outs, ∃ e, o.result = .error e) ∧ echoed [] outs = (some stop, fs) ∧
      ∃ w', (echo b.finish.1 b.finish.2.1).run (b.world randoms) = (some stop, w') ∧
        w'.wire = Outgoing.encode b.mode randoms fs := by
  obtain ⟨outs, hr, hend⟩ := Feed.exists_calls (E := E) b.finish.2.1
  obtain ⟨stop, w', hrun, hstop, hwire⟩ := run_echo hx hc randoms hr hend
  exact ⟨outs, stop, _, fun ms hms => Feed.sim_receives (ready_finish hx hc randoms) hr hms, hend,
    Prod.ext hstop rfl, w', hrun, hwire⟩

/-- A server that gets a ping, the text `A` and the binary message `7`. -/
def echoServer : Builder Empty :=
  Builder.new [.data [0x89, 0x80, 0, 0, 0, 0, 0x81, 0x81, 0, 0, 0, 0, 65], .data [0x82, 0x81, 0, 0, 0, 0, 7]]
    .server

/-- The pong, the text and the message, in this order. -/
theorem echo_run_echoServer :
    ((echo echoServer.finish.1 echoServer.finish.2.1).run (echoServer.world [])).2.wire =
        [0x8A, 0, 0x81, 1, 65, 0x82, 1, 7] ∧
      ∃ (outs : List Outcome) (stop : Stop) (fs : List Outgoing),
        (∀ ms : List (List UInt8), ms.length = outs.length →
          echoServer.finish.2.1.Receives echoServer.finish.2.1.stream (echoServer.world []) ms outs) ∧
        (∃ o ∈ outs, ∃ e, o.result = .error e) ∧ echoed [] outs = (some stop, fs) ∧
        ∃ w', (echo echoServer.finish.1 echoServer.finish.2.1).run (echoServer.world []) =
            (some stop, w') ∧
          w'.wire = Outgoing.encode .server [] fs :=
  ⟨by decide +kernel, echo_run (b := echoServer) rfl clean_nil.data.data []⟩

end Autobahn

/-! ## Panics -/

/-- The call returned something else than data. -/
def Outcome.IsControl (o : Outcome) : Prop := ∃ i, o.result = .ok i ∧ ∀ d, i ≠ .data d

/-- If the call returned a text, then a well-formed one. -/
def Outcome.WellFormed (o : Outcome) : Prop :=
  ∀ n, o.result = .ok (.data (.text n)) → (fromUtf8 o.appended).isSome

/-- A data message is returned before an error is. -/
inductive NextData : List Outcome → Prop
  | here {o : Outcome} {os : List Outcome} {d : Data} (h : o.result = .ok (.data d)) :
      NextData (o :: os)
  | skip {o : Outcome} {os : List Outcome} (h : o.IsControl) (hs : NextData os) : NextData (o :: os)

/-- A call that returned something else than data has appended part of a message, and a data message
is returned later. -/
inductive LeavesPart : List Outcome → Prop
  | here {o : Outcome} {os : List Outcome} (h : o.IsControl) (hne : o.appended ≠ [])
      (hs : NextData os) : LeavesPart (o :: os)
  | later {o : Outcome} {os : List Outcome} {i : Incoming} (h : o.result = .ok i)
      (hwf : o.WellFormed) (hs : LeavesPart os) : LeavesPart (o :: os)

namespace Feed

variable {E : Type} [Extension E] {cfg : Config} {st st' : Feed E} {l l' : Locals} {m : List UInt8}

theorem messageLen_of_again (h : st.step cfg l = .again st' l') : l'.messageLen = l.messageLen := by
  unfold step at h
  split_ifs at h
  rcases hd : cfg.codec.decodeHeader.run st.stream with e | ⟨header, off⟩ | n <;> rw [hd] at h
  · cases h
  · dsimp only [onFrame] at h
    split_ifs at h
    · unfold onControl at h
      cases hoc : header.opcode <;> rw [hoc] at h
      case ping =>
        cases h
        rfl
      case close =>
        dsimp only at h
        generalize closeAnswer _ = c at h
        rcases c with e | ⟨answer, _ | r⟩ <;> cases h
        rfl
      all_goals cases h
    · unfold onData at h
      split at h
      · cases h
      · cases h
        rfl
      · dsimp only at h
        split at h <;> cases h
        rfl
      all_goals
        unfold Feed.finish at h
        dsimp only at h
        split at h <;> cases h
  · cases h

theorem Steps.messageLen (h : Steps cfg st l st' l') : l'.messageLen = l.messageLen := by
  induction h with
  | refl => rfl
  | head h _ ih => exact ih.trans (messageLen_of_again h)

/-- A call on an empty vector counts the bytes of the message. -/
theorem Runs.len_data {d : Data} (h : Runs cfg st (.start []) (.ok (.data d)) st' m) :
    d.len = m.length := by
  obtain ⟨st₁, l₁, hs, hr⟩ := h
  rw [(step_ret_data hr).2, hs.messageLen]
  exact if_pos (Nat.zero_le _)

theorem Receives.len_data {s : List UInt8} {outs : List Outcome} (h : Receives cfg s st outs) :
    ∀ o ∈ outs, ∀ d, o.result = .ok (.data d) → d.len = o.appended.length := by
  induction outs generalizing st with
  | nil => simp
  | cons o os ih =>
    obtain ⟨st', hrun, -, -, hrest⟩ := h
    intro o' ho' d hd
    rcases List.mem_cons.mp ho' with rfl | ho'
    · rw [hd] at hrun
      exact hrun.len_data
    · rcases hres : o.result with e | i <;> rw [hres] at hrest
      · subst hrest
        cases ho'
      · exact ih hrest o' ho' d hd

end Feed

theorem Outcome.IsControl.nextData {o : Outcome} {os : List Outcome} (h : o.IsControl) :
    NextData (o :: os) ↔ NextData os := by
  refine ⟨fun hn => ?_, .skip h⟩
  obtain ⟨i, hi, hne⟩ := h
  cases hn with
  | here hd => exact absurd (Except.ok.inj (hi.symm.trans hd)) (hne _)
  | skip _ hs => exact hs

theorem Outcome.IsControl.leavesPart {o : Outcome} {os : List Outcome} (h : o.IsControl) :
    LeavesPart (o :: os) ↔ o.appended ≠ [] ∧ NextData os ∨ LeavesPart os := by
  constructor
  · rintro (⟨-, hne, hs⟩ | ⟨-, -, hs⟩)
    · exact Or.inl ⟨hne, hs⟩
    · exact Or.inr hs
  · rintro (⟨hne, hs⟩ | hs)
    · exact .here h hne hs
    · obtain ⟨i, hi, hne⟩ := h
      exact .later hi (fun n hn => absurd (Except.ok.inj (hi.symm.trans hn)) (hne _)) hs

theorem leavesPart_data {o : Outcome} {os : List Outcome} {d : Data}
    (h : o.result = .ok (.data d)) : LeavesPart (o :: os) ↔ o.WellFormed ∧ LeavesPart os := by
  constructor
  · rintro (⟨⟨i, hi, hne⟩, -, -⟩ | ⟨-, hwf, hs⟩)
    · exact absurd (Except.ok.inj (hi.symm.trans h)) (hne d)
    · exact ⟨hwf, hs⟩
  · rintro ⟨hwf, hs⟩
    exact .later h hwf hs

/-- **When the loop panics**, with `acc` in the vector. -/
theorem echoed_panicked {outs : List Outcome}
    (hlen : ∀ o ∈ outs, ∀ d, o.result = .ok (.data d) → d.len = o.appended.length)
    (acc : List UInt8) :
    (echoed acc outs).1 = some .panicked ↔ acc ≠ [] ∧ NextData outs ∨ LeavesPart outs := by
  induction outs generalizing acc with
  | nil =>
    refine iff_of_false (fun h => by cases h) ?_
    rintro (⟨-, h⟩ | h) <;> cases h
  | cons o os ih =>
    have ih' := ih fun o' ho' => hlen o' (List.mem_cons_of_mem o ho')
    have hcontrol : o.IsControl → (echoed acc (o :: os)).1 = (echoed (acc ++ o.appended) os).1 →
        ((echoed acc (o :: os)).1 = some .panicked ↔
          acc ≠ [] ∧ NextData (o :: os) ∨ LeavesPart (o :: os)) := by
      intro hc he
      have hne : acc ++ o.appended ≠ [] ↔ acc ≠ [] ∨ o.appended ≠ [] := by
        rw [ne_eq, List.append_eq_nil_iff, not_and_or]
      rw [he, ih', hc.nextData, hc.leavesPart, hne]
      tauto
    rcases hres : o.result with e | d | p | r
    · have hno : ∀ i, o.result ≠ .ok i := fun i hi => by cases hres.symm.trans hi
      refine iff_of_false (fun h => ?_) ?_
      · rw [echoed, hres] at h
        cases h
      · rintro (⟨-, hd | ⟨⟨i, hi, -⟩, -⟩⟩ | ⟨⟨i, hi, -⟩, -, -⟩ | ⟨hi, -, -⟩)
        · exact hno _ hd
        · exact hno _ hi
        · exact hno _ hi
        · exact hno _ hi
    · have hcount := hlen o List.mem_cons_self d hres
      have hnext : NextData (o :: os) := .here hres
      rw [leavesPart_data hres, echoed, hres]
      dsimp only
      by_cases hacc : acc = []
      · subst hacc
        have hecho : (∃ f, echoOf o.appended d = .ok f) ∧ o.WellFormed ∨
            (∃ stop, echoOf o.appended d = .error stop ∧ stop ≠ .panicked) ∧ ¬o.WellFormed := by
          cases d with
          | binary n =>
            refine Or.inl ⟨⟨_, if_neg (not_not.mpr hcount)⟩, fun n hn => ?_⟩
            cases hres.symm.trans hn
          | text n =>
            rw [echoOf, if_neg (not_not.mpr (show n = o.appended.length from hcount))]
            by_cases htxt : (fromUtf8 o.appended).isSome
            · exact Or.inl ⟨⟨_, if_pos htxt⟩, fun _ _ => htxt⟩
            · exact Or.inr ⟨⟨_, if_neg htxt, by simp⟩, fun hwf => htxt (hwf n hres)⟩
        rcases hecho with ⟨⟨f, hf⟩, hwf⟩ | ⟨⟨stop, hstop, hne⟩, hwf⟩
        · rw [List.nil_append, hf, ih' []]
          tauto
        · rw [List.nil_append, hstop]
          refine iff_of_false (fun h => hne (Option.some.inj h)) ?_
          tauto
      · have hpanic : echoOf (acc ++ o.appended) d = .error .panicked := by
          have hne : d.len ≠ (acc ++ o.appended).length := by
            have := List.length_pos_of_ne_nil hacc
            rw [hcount, List.length_append]
            omega
          cases d <;> exact if_pos hne
        rw [hpanic]
        exact iff_of_true rfl (Or.inl ⟨hacc, hnext⟩)
    · exact hcontrol ⟨_, hres, fun d h => by cases h⟩ (by rw [echoed, hres])
    · exact hcontrol ⟨_, hres, fun d h => by cases h⟩ (by rw [echoed, hres])

namespace Autobahn

/-- **When the echo loop panics.** On any bytes received, it panics just when a call of `receive`
returns a pong or a close reason after it has appended part of a message, and a data message is
returned later, with no error and no malformed text in between. -/
theorem echo_panics_iff {E : Type} [Extension E] {b : Builder E} (hx : b.extensions = [])
    (hc : Clean b.socket) (randoms : List UInt32) :
    ∃ outs : List Outcome,
      (∀ ms : List (List UInt8), ms.length = outs.length →
        b.finish.2.1.Receives b.finish.2.1.stream (b.world randoms) ms outs) ∧
      (∃ o ∈ outs, ∃ e, o.result = .error e) ∧
      (((echo b.finish.1 b.finish.2.1).run (b.world randoms)).1 = some .panicked ↔
        LeavesPart outs) := by
  obtain ⟨outs, hr, hend⟩ := Feed.exists_calls (E := E) b.finish.2.1
  obtain ⟨stop, w', hrun, hstop, -⟩ := run_echo hx hc randoms hr hend
  refine ⟨outs, fun ms hms => Feed.sim_receives (ready_finish hx hc randoms) hr hms, hend, ?_⟩
  rw [hrun, ← hstop, echoed_panicked hr.len_data]
  exact or_iff_right fun h => h.1 rfl

/-- A server that gets the beginning of a text, a pong, and a binary message. -/
def crashed : Builder Empty :=
  Builder.new [.data [0x01, 0x81, 0, 0, 0, 0, 65, 0x8A, 0x80, 0, 0, 0, 0, 0x82, 0x81, 0, 0, 0, 0, 7]]
    .server

/-- The loop panics. -/
theorem echo_panics_crashed :
    ((echo crashed.finish.1 crashed.finish.2.1).run (crashed.world [])).1 = some .panicked ∧
      ∃ outs : List Outcome,
        (∀ ms : List (List UInt8), ms.length = outs.length →
          crashed.finish.2.1.Receives crashed.finish.2.1.stream (crashed.world []) ms outs) ∧
        (∃ o ∈ outs, ∃ e, o.result = .error e) ∧
        (((echo crashed.finish.1 crashed.finish.2.1).run (crashed.world [])).1 = some .panicked ↔
          LeavesPart outs) :=
  ⟨by decide +kernel, echo_panics_iff (b := crashed) rfl clean_nil.data []⟩

end Autobahn

end Soketto
