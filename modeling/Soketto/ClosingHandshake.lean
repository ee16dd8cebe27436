import Soketto.Parting

/-!
# The closing handshake

One end performs operations and closes; the other performs operations of its own, and then receives
up to the first error; then the first end reads on. Neither has extensions.

* `run_performAll_open`, **`run_listen`**: what is written by operations and by calls on a healthy
  writer.
* `Op.reported`, `Op.answered`: what the calls of the peer, and of the end itself, return for an
  operation. `afterClose`: what the end that has closed still gets.
* **`closing_handshake`**: the end that answers gets all that was sent, and the end that has closed
  gets all, a pong for each of its pings, and the answer to its close frame, unless the peer has sent
  a ping.
-/

set_option autoImplicit false

namespace Soketto

open Incremental Chunked BigEndian

/-! ## Runs -/

section Runs

variable {E : Type} [Extension E]

/-- Operations without a close write their frames, and all of them succeed. -/
theorem run_performAll_open {w : World (List E)} (hw : w.Healthy) {s : Sender}
    (hx : s.hasExtensions = false) {ops : List Op} (hops : ∀ op ∈ ops, op ≠ .close) :
    ∃ s', (s.performAll ops).run w =
      (some (ops.map fun _ => .ok (), s'), emit s.mode (ops.filterMap Op.frame) w) := by
  induction ops generalizing s w with
  | nil => exact ⟨s, by rw [List.filterMap_nil, emit_nil]; rfl⟩
  | cons op ops ih =>
    obtain ⟨s₁, hr, hm, hx₁⟩ := run_perform hw hx (hops op List.mem_cons_self)
    obtain ⟨s', hr'⟩ := ih (healthy_emit s.mode hw op.frame.toList) hx₁
      fun o ho => hops o (List.mem_cons_of_mem _ ho)
    refine ⟨s', ?_⟩
    have hframes : (op :: ops).filterMap Op.frame = op.frame.toList ++ ops.filterMap Op.frame := by
      rw [List.filterMap_cons]
      cases op.frame <;> rfl
    rw [Sender.performAll]
    simp only [Fiber.run_bind, hr, hr', Fiber.run_pure, List.map_cons]
    rw [hm, ← emit_append, hframes]

namespace Feed

variable {r₀ r : Receiver} {w₀ w : World (List E)} {st : Feed E} {s : List UInt8}

/-- **Calls up to an error** report what the calls on the stream amount to, and write the answers. -/
theorem run_listen (hx : r₀.hasExtensions = false) (hw : w₀.Healthy) {outs : List Outcome}
    (hr : Receives r₀.config s st outs) (hend : Fails outs) (hT : Tracks r₀ w₀ r w st)
    {ms : List (List UInt8)} (hl : ms.length = outs.length) :
    ∃ (got : List (Received Incoming)) (st' : Feed E), (r.listen ms).run w = (some got, st'.world r₀.mode w₀) ∧
      st'.sent = st.sent ++ outs.flatMap Outcome.replies ∧
      gained ms got = outs.filterMap Outcome.gain := by
  induction outs generalizing st r w ms with
  | nil => exact absurd hend not_fails_nil
  | cons o os ih =>
    obtain ⟨m, ms, rfl⟩ := List.exists_cons_of_length_eq_add_one hl
    obtain ⟨st', hrun, hsent, -, hrest⟩ := hr
    rcases sim_receive (hrun.under hx m) hT with hb | ⟨r', w', hout, hT', hw'⟩
    · exact absurd hw hb.1
    rw [Receiver.listen]
    simp only [Fiber.run_bind, hout]
    cases hres : o.result with
    | error e =>
      rw [hres] at hrest
      obtain rfl : os = [] := hrest
      have hgain : o.gain = none := by rw [Outcome.gain, hres]
      refine ⟨_, st', by rw [hw' hw]; rfl, ?_, ?_⟩
      · rw [hsent, List.flatMap_cons, List.flatMap_nil, List.append_nil]
      · rw [List.filterMap_cons_none hgain]
        rfl
    | ok i =>
      rw [hres] at hrest hT'
      obtain ⟨got, st'', hrun', hsent', hgot⟩ :=
        ih hrest (hend.tail hres) (hT' trivial) (Nat.succ.inj hl)
      have hgain : o.gain = some (i, o.appended) := by rw [Outcome.gain, hres]
      refine ⟨⟨.ok i, r', m ++ o.appended⟩ :: got, st'', ?_, ?_, ?_⟩
      · simp only [Fiber.run_bind, hrun', Fiber.run_pure]
      · rw [hsent', hsent, List.flatMap_cons, List.append_assoc]
      · rw [List.filterMap_cons_some hgain, gained, List.drop_left, hgot]

end Feed

end Runs

/-! ## What is received -/

namespace Op

/-- What a call of the peer returns for an operation, and the bytes it appends. -/
def reported : Op → Option (Incoming × List UInt8)
  | sendText data | sendTextOwned data =>
    some (.data (.text data.toUTF8.toList.length), data.toUTF8.toList)
  | sendBinary data | sendBinaryMut data => some (.data (.binary data.length), data)
  | sendPong data => some (.pong data.bytes, [])
  | close => some (.closed ⟨1000, some ""⟩, [])
  | sendPing _ | flush => none

/-- What a call of the end itself returns for the peer's answer to its operation. -/
def answered : Op → Option (Incoming × List UInt8)
  | sendPing data => some (.pong data.bytes, [])
  | close => some (.closed ⟨1000, some ""⟩, [])
  | _ => none

/-- Is the operation a ping? -/
def isPing : Op → Bool
  | sendPing _ => true
  | _ => false

end Op

/-- What an end that has performed `ops` and closed still gets from a peer that has performed `ops'`:
everything, unless there is a ping, which it cannot answer any more. -/
def afterClose (ops ops' : List Op) : List (Incoming × List UInt8) :=
  if ops'.any Op.isPing then (ops'.takeWhile fun op => !op.isPing).filterMap Op.reported
  else ops'.filterMap Op.reported ++ (ops ++ [Op.close]).filterMap Op.answered

section Heard

variable {ops : List Op}

theorem heard_frames (hops : ∀ op ∈ ops, op ≠ .close) (fs : List Outgoing) :
    heard (ops.filterMap Op.frame ++ fs) = ops.filterMap Op.reported ++ heard fs := by
  induction ops with
  | nil => rfl
  | cons op ops ih =>
    have ih' := ih fun o ho => hops o (List.mem_cons_of_mem op ho)
    rw [List.filterMap_cons, List.filterMap_cons]
    cases op with
    | close => exact absurd rfl (hops _ List.mem_cons_self)
    | flush => exact ih'
    | sendPing data => exact ih'
    | _ => exact congrArg _ ih'

theorem replies_frames (hops : ∀ op ∈ ops, op ≠ .close) :
    replies ((ops ++ [Op.close]).filterMap Op.frame) = (ops ++ [Op.close]).filterMap Op.answer := by
  induction ops with
  | nil => rfl
  | cons op ops ih =>
    have ih' := ih fun o ho => hops o (List.mem_cons_of_mem op ho)
    rw [List.cons_append, List.filterMap_cons, List.filterMap_cons]
    cases op with
    | close => exact absurd rfl (hops _ List.mem_cons_self)
    | flush => exact ih'
    | sendPing data => exact congrArg _ ih'
    | _ => exact ih'

theorem heard_answers (hops : ∀ op ∈ ops, op ≠ .close) :
    heard (beforePing ((ops ++ [Op.close]).filterMap Op.answer)) =
      (ops ++ [Op.close]).filterMap Op.answered := by
  induction ops with
  | nil => rfl
  | cons op ops ih =>
    have ih' := ih fun o ho => hops o (List.mem_cons_of_mem op ho)
    rw [List.cons_append, List.filterMap_cons, List.filterMap_cons]
    cases op with
    | close => exact absurd rfl (hops _ List.mem_cons_self)
    | sendPing data =>
      dsimp only [Op.answer, Op.answered]
      rw [beforePing_cons, ← ih']
      · rfl
      · exact fun h => by cases h
    | _ => exact ih'

theorem beforePing_frames (ops : List Op) (fs : List Outgoing) :
    beforePing (ops.filterMap Op.frame ++ fs) =
      if ops.any Op.isPing then (ops.takeWhile fun op => !op.isPing).filterMap Op.frame
      else ops.filterMap Op.frame ++ beforePing fs := by
  induction ops with
  | nil => rfl
  | cons op ops ih =>
    -- a frame that is not a ping stays in front, on either side
    have hcons : ∀ f : Outgoing, f.header.opcode ≠ .ping →
        beforePing (f :: (ops.filterMap Op.frame ++ fs)) =
          if ops.any Op.isPing then f :: (ops.takeWhile fun op => !op.isPing).filterMap Op.frame
          else f :: (ops.filterMap Op.frame ++ beforePing fs) := by
      intro f hf
      rw [beforePing_cons hf, ih]
      split_ifs <;> rfl
    cases op with
    | sendPing data => exact List.takeWhile_cons_of_neg (by simp [Header.new])
    | flush => exact ih
    | _ => exact hcons _ fun h => by cases h

theorem heard_afterClose {ops' : List Op} (hops : ∀ op ∈ ops, op ≠ .close)
    (hops' : ∀ op ∈ ops', op ≠ .close) :
    heard (beforePing (ops'.filterMap Op.frame ++ (ops ++ [Op.close]).filterMap Op.answer)) =
      afterClose ops ops' := by
  rw [beforePing_frames, afterClose]
  split_ifs with hping
  · have hbefore : ∀ op ∈ ops'.takeWhile fun op => !op.isPing, op ≠ .close :=
      fun op hop => hops' op ((List.takeWhile_prefix _).subset hop)
    have h := heard_frames hbefore []
    rw [List.append_nil] at h
    exact h.trans (List.append_nil _)
  · rw [heard_frames hops', heard_answers hops]

end Heard

theorem Op.plain_answer {cfg : Config} (hctl : maxCtrlBodySize ≤ cfg.maxDataSize.toNat) {op : Op}
    {f : Outgoing} (hf : op.answer = some f) : f.Plain cfg := by
  cases op <;> cases hf
  case sendPing data =>
    exact ⟨rfl, rfl, fun h => (by cases h), fun _ => data.length_le, data.length_le.trans hctl,
      fun h => (by cases h)⟩
  case close =>
    exact ⟨rfl, rfl, fun h => (by cases h), fun _ => by decide, le_trans (by decide) hctl,
      fun h => (by cases h)⟩

/-- **The closing handshake.** Neither end has extensions, and no write fails. The end `a` performs
`ops` and closes; `b` performs `ops'`, and then receives up to the first error; then `a` reads on. All
operations succeed. `b` has got all of `ops` and the close reason, and `a` gets all of `ops'`, a pong
for each of its pings and the close reason, or, if there is a ping in `ops'`, what comes before it. -/
theorem closing_handshake {E E' : Type} [Extension E] [Extension E'] {a : Builder E}
    {b : Builder E'} (hax : a.extensions = []) (hbx : b.extensions = []) (ha : Clean a.socket)
    (hb : Clean b.socket) (ra rb : List UInt32) {ops ops' : List Op}
    (hops : ∀ op ∈ ops, op ≠ .close) (hops' : ∀ op ∈ ops', op ≠ .close)
    (hfits : ∀ op ∈ ops ++ [Op.close], op.Fits b.finish.2.1.config)
    (hfits' : ∀ op ∈ ops', op.Fits a.finish.2.1.config)
    (hctl : maxCtrlBodySize ≤ a.finish.2.1.config.maxDataSize.toNat)
    (hb_in : b.finish.2.1.stream =
      ((a.finish.1.performAll (ops ++ [.close])).run (a.world ra)).2.wire)
    {us : List (List UInt8)}
    (hus : us.length = ((ops ++ [Op.close]).filterMap Op.reported).length + 1)
    (ha_in : a.finish.2.1.stream = ((b.finish.2.1.listen us).run
      ((b.finish.1.performAll ops').run (b.world rb)).2).2.wire) :
    (∃ s', ((a.finish.1.performAll (ops ++ [.close])).run (a.world ra)).1 =
        some ((ops ++ [Op.close]).map fun _ => .ok (), s')) ∧
      (∃ s', ((b.finish.1.performAll ops').run (b.world rb)).1 =
        some (ops'.map fun _ => .ok (), s')) ∧
      (∃ got, ((b.finish.2.1.listen us).run
          ((b.finish.1.performAll ops').run (b.world rb)).2).1 = some got ∧
        gained us got = (ops ++ [Op.close]).filterMap Op.reported) ∧
      ∀ vs : List (List UInt8), vs.length = (afterClose ops ops').length + 1 →
        a.finish.2.1.HearsOnly a.finish.2.1.stream
          ((a.finish.1.performAll (ops ++ [.close])).run (a.world ra)).2 vs (afterClose ops ops') := by
  have hra := ready_finish hax ha ra
  have hrb := ready_finish hbx hb rb
  obtain ⟨s, hruna⟩ := run_performAll hra.healthy (s := a.finish.1)
    (by simp only [Builder.finish, hax]; rfl) hops
  obtain ⟨s', hrunb⟩ := run_performAll_open hrb.healthy (s := b.finish.1)
    (by simp only [Builder.finish, hbx]; rfl) hops'
  rw [hruna] at hb_in ⊢
  rw [hrunb] at ha_in ⊢
  refine ⟨⟨s, rfl⟩, ⟨s', rfl⟩, ?_⟩
  -- what `b` reads, and what it writes
  have hplain : ∀ f ∈ (ops ++ [Op.close]).filterMap Op.frame, f.Plain b.finish.2.1.config := by
    intro f hf
    obtain ⟨op, hop, hframe⟩ := List.mem_filterMap.mp hf
    exact Op.plain_frame hframe (hfits op hop)
  have hst : (Feed.ofReceiver b.finish.2.1 ([] : List E')).stream =
      Outgoing.encode a.mode ra ((ops ++ [Op.close]).filterMap Op.frame) ++ [] := by
    rw [List.append_nil]
    exact hb_in
  obtain ⟨outs, last, h₁, h₂, ⟨e, h₃⟩, h₄⟩ := Feed.receives_heard hrb.hasExtensions a.mode hplain
    (Or.inl rfl) (.refl (Feed.ofReceiver b.finish.2.1 ([] : List E')) _) hrb.isClosed (p := [])
    rfl (List.append_nil _).symm hst
  have hend : Feed.Fails (outs ++ [last]) :=
    ⟨last, List.mem_append_right _ (List.mem_singleton_self _), e, h₃⟩
  have hheard : heard ((ops ++ [Op.close]).filterMap Op.frame) =
      (ops ++ [Op.close]).filterMap Op.reported := by
    rw [List.filterMap_append, List.filterMap_append]
    exact heard_frames hops _
  have hlen : us.length = (outs ++ [last]).length := by
    have h := congrArg List.length h₂
    rw [List.length_map, List.length_map, hheard] at h
    rw [hus, List.length_append, h]
    rfl
  set w := emit b.finish.1.mode (ops'.filterMap Op.frame) (b.world rb) with hw
  have hhealthy : w.Healthy := healthy_emit _ hrb.healthy _
  have hshared : w.shared = [] := hrb.shared
  have hTb : Feed.Tracks b.finish.2.1 w b.finish.2.1 w
      (Feed.ofReceiver b.finish.2.1 ([] : List E')) :=
    hshared ▸ .start hrb.clean hrb.isClosed w
  obtain ⟨got, st', hlisten, hsent, hgot⟩ :=
    Feed.run_listen hrb.hasExtensions hhealthy h₁ hend hTb hlen
  dsimp only at ha_in ⊢
  rw [hlisten] at ha_in ⊢
  refine ⟨⟨got, rfl, ?_⟩, fun vs hvs => ?_⟩
  · rw [hgot, filterMap_gain h₂ h₃, hheard]
  -- what `a` reads
  have hreplies : st'.sent = (ops ++ [Op.close]).filterMap Op.answer := by
    rw [hsent, flatMap_replies hplain h₄, replies_frames hops]
    rfl
  have hst' : (Feed.ofReceiver a.finish.2.1 ([] : List E)).stream = Outgoing.encode b.mode rb
      (ops'.filterMap Op.frame ++ (ops ++ [Op.close]).filterMap Op.answer) ++ [] := by
    refine ha_in.trans ?_
    have hemit : (emit b.mode (ops'.filterMap Op.frame ++ st'.sent) (b.world rb)).wire = _ :=
      congrArg World.wire (emit_append _ _ _)
    rw [List.append_nil, ← hreplies]
    exact hemit.symm
  have hplain' : ∀ f ∈ ops'.filterMap Op.frame ++ (ops ++ [Op.close]).filterMap Op.answer,
      f.Plain a.finish.2.1.config := by
    intro f hf
    rcases List.mem_append.mp hf with hf | hf
    · obtain ⟨op, hop, hframe⟩ := List.mem_filterMap.mp hf
      exact Op.plain_frame hframe (hfits' op hop)
    · obtain ⟨op, -, hframe⟩ := List.mem_filterMap.mp hf
      exact Op.plain_answer hctl hframe
  have hTa : Feed.Tracks a.finish.2.1 (a.world ra) a.finish.2.1 (a.world ra)
      (Feed.ofReceiver a.finish.2.1 ([] : List E)) :=
    hra.shared ▸ .start hra.clean hra.isClosed _
  have hparted : World.Parted { emit a.finish.1.mode ((ops ++ [Op.close]).filterMap Op.frame)
      (a.world ra) with closed := true } := ⟨rfl, rfl⟩
  have hshared' : (a.world ra).shared = (Feed.ofReceiver a.finish.2.1 ([] : List E)).exts :=
    hra.shared
  rw [← heard_afterClose hops hops'] at hvs ⊢
  exact hears_parted hra.hasExtensions hra.healthy hparted hshared' hplain' (Or.inl rfl) hTa
    hra.isClosed (List.suffix_refl _) hst' vs hvs

/-- A client that gets a message and the answer to its close frame. -/
def closingClient : Builder Empty :=
  Builder.new [.data [0x82, 1, 8, 0x88], .data [2, 0x03, 0xE8]] .client

/-- Its server. -/
def closingServer : Builder Empty :=
  Builder.new [.data [0x82, 0x81, 0, 0, 0, 0, 7, 0x88, 0x82, 0, 0, 0, 0, 0x03, 0xE8]] .server

/-- Both send a message, and the client closes. -/
theorem closing_handshake_client :
    let ops := [Op.sendBinary [7]]
    let ops' := [Op.sendBinary [8]]
    let us : List (List UInt8) := [[], [], []]
    afterClose ops ops' = [(.data (.binary 1), [8]), (.closed ⟨1000, some ""⟩, [])] ∧
      (∃ s', ((closingClient.finish.1.performAll (ops ++ [.close])).run (closingClient.world [])).1 =
        some ((ops ++ [Op.close]).map fun _ => .ok (), s')) ∧
      (∃ s', ((closingServer.finish.1.performAll ops').run (closingServer.world [])).1 =
        some (ops'.map fun _ => .ok (), s')) ∧
      (∃ got, ((closingServer.finish.2.1.listen us).run
          ((closingServer.finish.1.performAll ops').run (closingServer.world [])).2).1 = some got ∧
        gained us got = (ops ++ [Op.close]).filterMap Op.reported) ∧
      ∀ vs : List (List UInt8), vs.length = (afterClose ops ops').length + 1 →
        closingClient.finish.2.1.HearsOnly closingClient.finish.2.1.stream
          ((closingClient.finish.1.performAll (ops ++ [.close])).run (closingClient.world [])).2 vs
          (afterClose ops ops') :=
  ⟨rfl, closing_handshake (a := closingClient) (b := closingServer) rfl rfl clean_nil.data.data
    clean_nil.data [] [] (by decide) (by decide) (by decide) (by decide) (by decide)
    (by decide +kernel) rfl (by decide +kernel)⟩

end Soketto
