import Soketto.Feed

/-!
# The receiver refines the reader of its stream

* `Tracks r₀ w₀ r w st`: the receiver `r` in the world `w`, which began as `r₀` in `w₀`, is at `st`.
  What was written is known when the writer is healthy.
* `Sim`: a round ends as a step does, or because a reply could not be written.
* **`sim_receiveRound`**: one round simulates one step; **`sim_receive`**: one call of `receive`
  simulates one call on the stream, and returns.
-/

set_option autoImplicit false

namespace Soketto

open Incremental Chunked BigEndian

namespace Feed

variable {E : Type}

/-- The world in which the state `st` is reached from `w₀`. -/
def world (mode : Mode) (w₀ : World (List E)) (st : Feed E) : World (List E) :=
  { emit mode st.sent w₀ with closed := st.isClosed, shared := st.exts }

/-- The receiver `r` in the world `w`, once `r₀` in `w₀`, is at `st`. -/
structure Tracks (r₀ : Receiver) (w₀ : World (List E)) (r : Receiver) (w : World (List E))
    (st : Feed E) : Prop where
  at_pos : Receiver.At { r₀ with isClosed := st.isClosed } r (r₀.stream.length - st.stream.length)
  suffix : st.stream <:+ r₀.stream
  shared : w.shared = st.exts
  world : w₀.Healthy → w = st.world r₀.mode w₀

/-- The state in which a receiver starts. -/
def ofReceiver (r : Receiver) (exts : List E) : Feed E where
  stream := r.stream
  isClosed := r.isClosed
  exts := exts
  sent := []

/-- A round of the receiver ends as a step of the stream reader does, or is broken off because a
reply could not be written. -/
inductive Sim (r₀ : Receiver) (w₀ : World (List E)) : Round × World (List E) → Step E → Prop
  | again {r : Receiver} {w : World (List E)} {st : Feed E} {l : Locals}
      (h : Tracks r₀ w₀ r w st) : Sim r₀ w₀ (.again r l, w) (.again st l)
  | ret {r : Receiver} {w : World (List E)} {st : Feed E} {message : List UInt8}
      {result : Except Error Incoming} (h : InSync result → Tracks r₀ w₀ r w st)
      (hw : w₀.Healthy → w = st.world r₀.mode w₀) :
      Sim r₀ w₀ (.ret result r message, w) (.ret result st message)
  | broken {r : Receiver} {w : World (List E)} {message : List UInt8} {out : Step E}
      (h : ¬w₀.Healthy) : Sim r₀ w₀ (.ret (.error .closed) r message, w) out

section

variable {r₀ r r' : Receiver} {w₀ w w' : World (List E)} {st : Feed E}

theorem Tracks.start (hc : Clean r.reader) (ho : r.isClosed = false) (w : World (List E)) :
    Tracks r w r w (ofReceiver r w.shared) where
  at_pos := by
    have hr : ({ r with isClosed := r.isClosed } : Receiver) = r := rfl
    simp only [ofReceiver, Nat.sub_self]
    exact Receiver.At.refl hc
  suffix := List.suffix_refl _
  shared := rfl
  world := fun hw => by
    simp only [Feed.world, ofReceiver, emit_nil, ho, ← hw.closed]

theorem Tracks.stream (h : Tracks r₀ w₀ r w st) : r.stream = st.stream := by
  rw [h.at_pos.stream]
  exact (List.suffix_iff_eq_drop.mp h.suffix).symm

theorem Tracks.isClosed (h : Tracks r₀ w₀ r w st) : r.isClosed = st.isClosed := h.at_pos.isClosed

theorem Tracks.config (h : Tracks r₀ w₀ r w st) : r.config = r₀.config := h.at_pos.config

theorem Tracks.ret {result : Except Error Incoming} {message : List UInt8}
    (h : Tracks r₀ w₀ r w st) : Sim r₀ w₀ (.ret result r message, w) (.ret result st message) :=
  .ret (fun _ => h) h.world

theorem Tracks.lost {result : Except Error Incoming} {message : List UInt8}
    {st' : Feed E} (h : Tracks r₀ w₀ r w st) (hs : ¬InSync result)
    (hst : st'.world r₀.mode w₀ = st.world r₀.mode w₀) :
    Sim r₀ w₀ (.ret result r' message, w) (.ret result st' message) :=
  .ret (fun hr => absurd hr hs) fun hw => (h.world hw).trans hst.symm

theorem Tracks.healthy (h : Tracks r₀ w₀ r w st) (hw : w₀.Healthy) (ho : st.isClosed = false) :
    w.Healthy := by
  rw [h.world hw]
  exact ⟨ho, hw.outcomes⟩

theorem Tracks.advance (h : Tracks r₀ w₀ r w st) {k : ℕ} (hat : Receiver.At r r' k)
    (hk : k ≤ st.stream.length) : Tracks r₀ w₀ r' w { st with stream := st.stream.drop k } where
  at_pos := by
    have hle := h.suffix.length_le
    have hpos : r₀.stream.length - (st.stream.drop k).length =
        r₀.stream.length - st.stream.length + k := by
      rw [List.length_drop]
      omega
    rw [hpos]
    exact h.at_pos.trans hat
  suffix := (List.drop_suffix k st.stream).trans h.suffix
  shared := h.shared
  world := h.world

theorem Tracks.congr (h : Tracks r₀ w₀ r w st) (hc : r'.config = r.config)
    (hi : r'.isClosed = r.isClosed) (hb : r'.buffer = r.buffer) (hr : r'.reader = r.reader) :
    Tracks r₀ w₀ r' w st where
  at_pos := ⟨hc.trans h.at_pos.config, hi.trans h.at_pos.isClosed, hb.trans h.at_pos.buffer,
    hr ▸ h.at_pos.reader, hr ▸ h.at_pos.clean⟩
  suffix := h.suffix
  shared := h.shared
  world := h.world

theorem Tracks.setExts (h : Tracks r₀ w₀ r w st) (exts : List E) :
    Tracks r₀ w₀ r { w with shared := exts } { st with exts } where
  at_pos := h.at_pos
  suffix := h.suffix
  shared := rfl
  world := fun hw => by rw [h.world hw]; rfl

theorem Tracks.reply (h : Tracks r₀ w₀ r w st) (f : Outgoing) (hs : w'.shared = w.shared)
    (hw' : w₀.Healthy → w' = emit r.mode [f] w) : Tracks r₀ w₀ r w' (st.reply f) where
  at_pos := h.at_pos
  suffix := h.suffix
  shared := hs.trans h.shared
  world := fun hw => by
    rw [hw' hw, show r.mode = r₀.mode from congrArg Config.mode h.config, h.world hw, Feed.world,
      Feed.world, Feed.reply, emit_append]
    rfl

theorem Tracks.close (h : Tracks r₀ w₀ r w st) (hs : w'.shared = w.shared)
    (hw' : w₀.Healthy → w' = { w with closed := true }) :
    Tracks r₀ w₀ { r with isClosed := true } w' { st with isClosed := true } where
  at_pos := ⟨h.at_pos.config, rfl, h.at_pos.buffer, h.at_pos.reader, h.at_pos.clean⟩
  suffix := h.suffix
  shared := hs.trans h.shared
  world := fun hw => by rw [hw' hw, h.world hw]; rfl

end

/-! ## Control frames -/

section

variable {r₀ r : Receiver} {w₀ w : World (List E)} {st : Feed E}

theorem run_reply (hT : Tracks r₀ w₀ r w st) (ho : st.isClosed = false) (header : Header)
    (data : List UInt8) :
    ∃ ok₁ ok₂ h data' mb' w₁ w₂,
      (write r.mode r.codec header (.unique data) []).run w =
        (⟨okOrClosed ok₁, (r.codec.encodeHeader h).2, data', mb'⟩, w₁) ∧
      (∀ codec ctrlBuffer, ({ r with codec, ctrlBuffer : Receiver }.flush).run w₁ =
        (okOrClosed ok₂, w₂)) ∧
      (w₀.Healthy → ok₁ = true ∧ ok₂ = true) ∧
      Tracks r₀ w₀ r w₂ (st.reply ⟨header, data⟩) := by
  have hopen : r.isClosed = false := hT.isClosed.trans ho
  obtain ⟨ok₁, h, data', mb', w₁, hw₁, hs₁⟩ :=
    exists_run_write r.mode w r.codec header (.unique data) []
  obtain ⟨ok₂, w₂, hw₂, hs₂⟩ := exists_run_flushWriter w₁
  refine ⟨ok₁, ok₂, h, data', mb', w₁, w₂, hw₁, fun codec ctrlBuffer => ?_, fun hw => ?_,
    hT.reply _ (hs₂.trans hs₁) fun hw => ?_⟩
  · simp only [Receiver.flush, hopen, Bool.false_eq_true, if_false]
    exact hw₂
  all_goals
    have hh := hT.healthy hw ho
    have hr₁ := (run_write hh r.codec header (.unique data) []).symm.trans hw₁
    have hr₂ : w₁ = emit r.mode [⟨header, data⟩] w := (congrArg Prod.snd hr₁).symm
    have hr₃ := (run_flushWriter (healthy_emit r.mode hh [⟨header, data⟩])).symm.trans (hr₂ ▸ hw₂)
  · refine ⟨?_, ?_⟩
    · cases ok₁ with
      | false => cases congrArg (fun p => p.1.result) hr₁
      | true => rfl
    · cases ok₂ with
      | false => cases congrArg Prod.fst hr₃
      | true => rfl
  · exact (congrArg Prod.snd hr₃).symm

theorem sim_onControl (hT : Tracks r₀ w₀ r w st) (ho : st.isClosed = false) (header : Header)
    (hne : header.opcode ≠ .pong) (l : Locals) :
    Sim r₀ w₀ ((do
      match ← r.onControl header with
      | (.error e, self) => return .ret (.error e) self l.message
      | (.ok (some reason), self) => return .ret (.ok (.closed reason)) self l.message
      | (.ok none, self) => return .again self l : Fiber (List E) Round).run w)
      (st.onControl header r.ctrlBuffer l) := by
  unfold Receiver.onControl Feed.onControl
  cases hoc : header.opcode with
  | ping =>
    obtain ⟨ok₁, ok₂, h, data', mb', w₁, w₂, hw₁, hw₂, hok, hT'⟩ :=
      run_reply hT ho (Header.new .pong) r.ctrlBuffer
    simp only [Fiber.run_bind, hw₁]
    cases ok₁ with
    | false => exact .broken fun hw => Bool.false_ne_true (hok hw).1
    | true =>
      simp only [okOrClosed, if_true, Fiber.run_bind, hw₂]
      cases ok₂ with
      | false => exact .broken fun hw => Bool.false_ne_true (hok hw).2
      | true => exact .again (hT'.congr (Receiver.config_encodeHeader _ _ _) rfl rfl rfl)
  | pong => exact absurd hoc hne
  | close =>
    rcases hca : closeAnswer r.ctrlBuffer with e | ⟨answer, reason⟩
    · exact hT.ret
    · obtain ⟨ok₁, ok₂, h, data', mb', w₁, w₂, hw₁, hw₂, hok, hT'⟩ :=
        run_reply hT ho answer (answerData reason)
      simp only [Fiber.run_bind, hw₁, hw₂]
      cases ok₂ with
      | false => exact .broken fun hw => Bool.false_ne_true (hok hw).2
      | true =>
        obtain ⟨ok₃, w₃, hw₃, hs₃⟩ := exists_run_closeWriter w₂
        have hclose := (hT'.congr (Receiver.config_encodeHeader r h r.ctrlBuffer) rfl rfl rfl).close hs₃
          fun hw => (congrArg Prod.snd ((run_closeWriter (hT'.healthy hw ho)).symm.trans hw₃)).symm
        simp only [okOrClosed, if_true, Fiber.run_bind, hw₃, Fiber.run_pure]
        cases reason with
        | none => exact .again hclose
        | some reason => exact hclose.ret
  | _ => exact hT.ret

theorem sim_controlFrame (hT : Tracks r₀ w₀ r w st) (ho : st.isClosed = false) {header : Header}
    (hlen : header.payloadLen ≤ st.stream.length) (l : Locals) :
    Sim r₀ w₀ ((r.controlFrame header l).run w)
      ({ st with stream := st.stream.drop header.payloadLen }.onControl header
        (applyMask header (st.stream.take header.payloadLen)) l) := by
  obtain ⟨r', hr', htake, hat⟩ :=
    Receiver.readBuffer_of_le hT.at_pos.clean header (by rw [hT.stream]; exact hlen)
  have hT' : Tracks r₀ w₀ { r' with
      buffer := r'.buffer.drop header.payloadLen
      ctrlBuffer := applyMask header (r'.buffer.take header.payloadLen) } w
      { st with stream := st.stream.drop header.payloadLen } :=
    (hT.advance hat hlen).congr rfl rfl rfl rfl
  unfold Receiver.controlFrame
  rw [hr']
  dsimp only
  rw [htake, hT.stream] at hT' ⊢
  by_cases hp : header.opcode = .pong
  · rw [if_pos hp, Feed.onControl, hp]
    exact hT'.ret
  · rw [if_neg hp]
    exact sim_onControl hT' ho header hp l

/-! ## Data frames -/

variable [Extension E]

theorem run_decodeWithExtensions (hT : Tracks r₀ w₀ r w st) (header : Header)
    (message : List UInt8) :
    (r.decodeWithExtensions header message).run w =
      let d := st.decode r₀.config header message
      ((d.result.mapError .extension, d.header, d.data), { w with shared := d.ext }) := by
  have hext : r.hasExtensions = r₀.config.hasExtensions := congrArg Config.hasExtensions hT.config
  unfold Receiver.decodeWithExtensions Feed.decode
  rw [hext]
  split_ifs
  · simp only [Fiber.run_pure, ← hT.shared, Except.mapError]
  · simp only [Fiber.run_locked, hT.shared]

theorem sim_initial (hT : Tracks r₀ w₀ r w st) (header : Header) (l : Locals) :
    Sim r₀ w₀ ((do
      match ← r.decodeWithExtensions header l.message with
      | (.error e, _, message) => return .ret (.error e) r message
      | (.ok (), _, message) =>
        return .again r { l with firstFragmentOpcode := some header.opcode, message } :
          Fiber (List E) Round).run w)
      (match (st.decode r₀.config header l.message).result with
        | .error e => .ret (.error (.extension e))
            { st with exts := (st.decode r₀.config header l.message).ext }
            (st.decode r₀.config header l.message).data
        | .ok () => .again { st with exts := (st.decode r₀.config header l.message).ext }
            { l with
              firstFragmentOpcode := some header.opcode
              message := (st.decode r₀.config header l.message).data }) := by
  simp only [Fiber.run_bind, run_decodeWithExtensions hT]
  generalize st.decode r₀.config header l.message = d
  rcases hd : d.result with e | u
  · exact (hT.setExts d.ext).ret
  · exact .again (hT.setExts d.ext)

theorem sim_finish (hT : Tracks r₀ w₀ r w st) (header : Header) (f : Header → Header) (l : Locals) :
    Sim r₀ w₀ ((do
      match ← r.decodeWithExtensions header l.message with
      | (.error e, _, message) => return .ret (.error e) r message
      | (.ok (), header, message) => return r.finishMessage (f header) { l with message } :
          Fiber (List E) Round).run w)
      (st.finish (st.decode r₀.config header l.message)
        (f (st.decode r₀.config header l.message).header).opcode l) := by
  simp only [Fiber.run_bind, run_decodeWithExtensions hT]
  generalize st.decode r₀.config header l.message = d
  unfold Feed.finish
  rcases hd : d.result with e | u
  · exact (hT.setExts d.ext).ret
  · simp only [Except.mapError, Receiver.finishMessage, Data.ofOpCode]
    split_ifs <;> exact (hT.setExts d.ext).ret

theorem sim_assemble (hT : Tracks r₀ w₀ r w st) (header : Header) (l : Locals) :
    Sim r₀ w₀ ((r.assemble header l).run w) (st.onData r₀.config header l) := by
  obtain ⟨fin, rsv1, rsv2, rsv3, masked, opcode, mask, payloadLen⟩ := header
  obtain ⟨first, length, messageLen, message⟩ := l
  unfold Receiver.assemble Feed.onData place
  dsimp only
  split
  · cases first with
    | none => exact hT.ret
    | some oc => exact .again hT
  · next hoc =>
    rw [if_neg hoc]
    cases first with
    | none =>
      exact sim_initial hT ⟨false, rsv1, rsv2, rsv3, masked, opcode, mask, payloadLen⟩
        ⟨none, length, messageLen, message⟩
    | some oc => exact hT.ret
  · cases first with
    | none => exact hT.ret
    | some oc =>
      exact sim_finish hT ⟨true, rsv1, rsv2, rsv3, masked, .continue, mask, message.length⟩
        (fun header => { header with opcode := oc }) ⟨some oc, length, messageLen, message⟩
  · next hoc =>
    rw [if_neg hoc]
    cases first with
    | none =>
      exact sim_finish hT ⟨true, rsv1, rsv2, rsv3, masked, opcode, mask, payloadLen⟩ id
        ⟨none, length, messageLen, message⟩
    | some oc => exact hT.ret

theorem sim_dataFrame (hT : Tracks r₀ w₀ r w st) {header : Header}
    (hctl : header.opcode.isControl = false) (l : Locals) :
    Sim r₀ w₀ ((r.dataFrame header l).run w) (st.onFrame r₀.config header l) := by
  have hmax : r.maxMessageSize = r₀.config.maxMessageSize :=
    congrArg Config.maxMessageSize hT.config
  have hclean := hT.at_pos.clean
  unfold Receiver.dataFrame Feed.onFrame
  rw [hctl, hmax]
  dsimp only
  rw [if_neg Bool.false_ne_true]
  split_ifs with h₁ h₂
  · obtain ⟨reader, hd, -, -⟩ :=
      bytes_discard (n := saturatingAdd l.length header.payloadLen) hclean
    rw [Receiver.discardBytes, hd]
    exact hT.lost id rfl
  · obtain ⟨r', hr'⟩ := Receiver.readPayload_of_lt hclean header l.message
      (by rw [hT.stream]; exact h₂)
    rw [hr', hT.stream]
    exact hT.lost id rfl
  · obtain ⟨r', hr', hat⟩ := Receiver.readPayload_of_le hclean header l.message
      (by rw [hT.stream]; omega)
    rw [hr', hT.stream]
    exact sim_assemble (hT.advance hat (by omega)) header _

/-! ## Rounds and calls -/

/-- **One round of the receiver is one step on its stream.** -/
theorem sim_receiveRound (hT : Tracks r₀ w₀ r w st) (l : Locals) :
    ∃ out w', (r.receiveRound l).run w = (some out, w') ∧
      Sim r₀ w₀ (out, w') (st.step r₀.config l) := by
  unfold Receiver.receiveRound Feed.step
  by_cases hcl : st.isClosed = true
  · rw [if_pos (hT.isClosed.trans hcl), if_pos hcl]
    exact ⟨_, _, rfl, hT.lost id rfl⟩
  rw [if_neg (by rw [hT.isClosed]; exact hcl), if_neg hcl]
  have ho : st.isClosed = false := Bool.eq_false_iff.mpr hcl
  have hT₀ : Tracks r₀ w₀ { r with ctrlBuffer := [] } w st := hT.congr rfl rfl rfl rfl
  have hspec := Receiver.receiveHeader_spec hT₀.at_pos.clean
  have hdec : r₀.config.codec.decodeHeader.run st.stream =
      ({ r with ctrlBuffer := [] } : Receiver).config.codec.decodeHeader.run
        ({ r with ctrlBuffer := [] } : Receiver).stream := by
    rw [hT₀.config, hT₀.stream]
  rcases hd : r₀.config.codec.decodeHeader.run st.stream with e | ⟨header, off⟩ | n
  · obtain ⟨r', hr'⟩ := hspec.error (hdec.symm.trans hd)
    rw [hr']
    exact ⟨_, _, rfl, hT.lost id rfl⟩
  · obtain ⟨r', hr', hat⟩ := hspec.done (hdec.symm.trans hd)
    have hT' := hT₀.advance hat ((Codec.exact_decodeHeader _).le hd)
    rw [hr']
    cases hctl : header.opcode.isControl with
    | false =>
      simp only [hctl, Bool.false_eq_true, if_false, Fiber.run_bind, Fiber.run_pure]
      exact ⟨_, _, rfl, sim_dataFrame hT' hctl l⟩
    | true =>
      simp only [hctl, if_true, Fiber.run_bind, Fiber.run_pure]
      refine ⟨_, _, rfl, ?_⟩
      rw [Feed.onFrame, hctl, if_pos rfl]
      split_ifs with hlen
      · obtain ⟨r'', hr''⟩ := Receiver.readBuffer_of_lt hT'.at_pos.clean header
          (by rw [hT'.stream]; exact hlen)
        rw [Receiver.controlFrame, hr'']
        exact hT.lost id rfl
      · exact sim_controlFrame hT' ho (by omega) l
  · obtain ⟨r', hr'⟩ := hspec.needMore (hdec.symm.trans hd)
    rw [hr']
    exact ⟨_, _, rfl, hT.lost id rfl⟩

/-- A call that was broken off because a reply could not be written. -/
def Broken (w₀ : World (List E)) (out : Option (Received Incoming) × World (List E)) : Prop :=
  ¬w₀.Healthy ∧ ∃ r message w, out = (some ⟨.error .closed, r, message⟩, w)

theorem sim_steps {st st' : Feed E} {l l' : Locals} (hs : Steps r₀.config st l st' l')
    {r : Receiver} {w : World (List E)} (hT : Tracks r₀ w₀ r w st) {fuel : ℕ}
    (hf : st.stream.length < fuel) :
    Broken w₀ ((r.receiveLoop fuel l).run w) ∨
      ∃ r' w' fuel', (r.receiveLoop fuel l).run w = (r'.receiveLoop fuel' l').run w' ∧
        st'.stream.length < fuel' ∧ Tracks r₀ w₀ r' w' st' := by
  induction hs generalizing r w fuel with
  | refl st l => exact Or.inr ⟨r, w, fuel, rfl, hf, hT⟩
  | @head st st₁ st₂ l l₁ l₂ h hs ih =>
    have hlt := length_of_again h
    obtain ⟨fuel, rfl⟩ : ∃ n, fuel = n + 1 := ⟨fuel - 1, by omega⟩
    obtain ⟨out, w', hrun, hsim⟩ := sim_receiveRound hT l
    rw [h] at hsim
    rw [Receiver.receiveLoop]
    simp only [Fiber.run_bind, hrun]
    cases hsim with
    | again hT' => exact ih hT' (by omega)
    | broken hw => exact Or.inl ⟨hw, _, _, _, rfl⟩

theorem sim_loop {result : Except Error Incoming} {st st' : Feed E} {l : Locals}
    {message : List UInt8} (hr : Runs r₀.config st l result st' message) (hT : Tracks r₀ w₀ r w st)
    {fuel : ℕ} (hf : st.stream.length < fuel) :
    Broken w₀ ((r.receiveLoop fuel l).run w) ∨
      ∃ r' w', (r.receiveLoop fuel l).run w = (some ⟨result, r', message⟩, w') ∧
        (InSync result → Tracks r₀ w₀ r' w' st') ∧ (w₀.Healthy → w' = st'.world r₀.mode w₀) := by
  obtain ⟨st₁, l₁, hs, hret⟩ := hr
  rcases sim_steps hs hT hf with hb | ⟨r₁, w₁, fuel₁, hrun, hf₁, hT₁⟩
  · exact Or.inl hb
  obtain ⟨fuel₁, rfl⟩ : ∃ n, fuel₁ = n + 1 := ⟨fuel₁ - 1, by omega⟩
  obtain ⟨out, w', hrun₁, hsim⟩ := sim_receiveRound hT₁ l₁
  rw [hret] at hsim
  rw [hrun, Receiver.receiveLoop]
  simp only [Fiber.run_bind, hrun₁]
  cases hsim with
  | ret hT' hw => exact Or.inr ⟨_, _, rfl, hT', hw⟩
  | broken hw => exact Or.inl ⟨hw, _, _, _, rfl⟩

/-- **A call of `receive` is a call on the stream**, unless a reply could not be written. -/
theorem sim_receive {result : Except Error Incoming} {st' : Feed E} {m message : List UInt8}
    (hr : Runs r₀.config st (.start m) result st' message) (hT : Tracks r₀ w₀ r w st) :
    Broken w₀ ((r.receive m).run w) ∨
      ∃ r' w', (r.receive m).run w = (some ⟨result, r', message⟩, w') ∧
        (InSync result → Tracks r₀ w₀ r' w' st') ∧ (w₀.Healthy → w' = st'.world r₀.mode w₀) :=
  sim_loop hr hT (by rw [← hT.stream, r.length_stream]; exact Nat.lt_succ_self _)

end

end Feed

end Soketto
