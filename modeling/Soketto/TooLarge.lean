import Soketto.Feed.Frames

/-!
# Messages that are too large

When the accumulated length exceeds the maximum, `receive` discards as many bytes from the reader
as the message has accumulated. It does not look at the buffer, and it counts the earlier fragments
again, which have been read already.

* `steps_frames`: the frames before the one that is too large, with any extensions.
* `receiveRound_tooLarge`: the round that discards.
* **`tooLarge_at_iff`**: when the receiver stands at the end of the frame that was too large.
-/

set_option autoImplicit false

namespace Soketto

open Incremental Chunked

variable {cfg : Config}

theorem closeAnswer_ne_tooLarge {data : List UInt8} {current maximum : ℕ} :
    closeAnswer data ≠ .error (.messageTooLarge current maximum) := by
  intro h
  unfold closeAnswer at h
  dsimp only at h
  split at h
  · split at h
    · cases h
    · split_ifs at h
  · cases h

namespace Feed

variable {E : Type} {st st' : Feed E} {l l' : Locals}

/-! ## The frames before -/

theorem of_onControl_again {h : Header} {payload : List UInt8}
    (hst : st.onControl h payload l = .again st' l') : l' = l ∧ st'.stream = st.stream := by
  have htook := took_onControl st h payload l
  rw [hst] at htook
  refine ⟨?_, htook.1⟩
  unfold onControl at hst
  cases hoc : h.opcode <;> rw [hoc] at hst <;> try cases hst
  · rcases hcl : closeAnswer payload with e | ⟨answer, _ | r⟩ <;> rw [hcl] at hst <;> cases hst
    rfl
  · rfl

variable [Extension E]

theorem of_onData_again {h : Header} (hctl : h.opcode.isControl = false)
    (hst : st.onData cfg h l = .again st' l') : l'.length = l.length ∧ st'.stream = st.stream := by
  have htook := took_onData cfg st hctl l
  rw [hst] at htook
  refine ⟨?_, htook.1⟩
  unfold onData at hst
  cases hp : place l.firstFragmentOpcode h with
  | unexpected => rw [hp] at hst; cases hst
  | intermediate => rw [hp] at hst; cases hst; rfl
  | initial =>
    rw [hp] at hst
    dsimp only at hst
    split at hst <;> cases hst
    rfl
  | last oc =>
    rw [hp] at hst
    dsimp only [finish] at hst
    split at hst <;> cases hst
  | single =>
    rw [hp] at hst
    dsimp only [finish] at hst
    split at hst <;> cases hst

theorem isClosed_of_again (h : st.step cfg l = .again st' l') : st.isClosed = false := by
  by_contra hc
  rw [step, if_pos (Bool.eq_true_of_not_eq_false hc)] at h
  cases h

theorem again_frame (hlim : cfg.maxMessageSize.toNat < usizeMax) {fs : List (Frame cfg)}
    (hs : st.stream = Frame.stream fs) (hmax : l.length ≤ cfg.maxMessageSize.toNat)
    (h : st.step cfg l = .again st' l') :
    ∃ f fs', fs = f :: fs' ∧ st'.stream = Frame.stream fs' ∧
      l'.length = l.length + Frame.dataLen [f] ∧ l'.length ≤ cfg.maxMessageSize.toNat := by
  have hlt := length_of_again h
  have ho := isClosed_of_again h
  cases fs with
  | nil =>
    rw [hs] at hlt
    simp [Frame.stream] at hlt
  | cons f fs' =>
    rw [Frame.stream_cons] at hs
    refine ⟨f, fs', rfl, ?_⟩
    cases hctl : f.header.opcode.isControl with
    | true =>
      rw [step_control f hs ho hctl] at h
      obtain ⟨rfl, hst⟩ := of_onControl_again h
      exact ⟨hst, by rw [Frame.dataLen_control hctl]; rfl, hmax⟩
    | false =>
      by_cases hle : saturatingAdd l.length f.header.payloadLen ≤ cfg.maxMessageSize.toNat
      · have hadd : l.length + f.header.payloadLen ≤ cfg.maxMessageSize.toNat := by
          rw [saturatingAdd] at hle
          omega
        rw [step_data f hs ho hctl l hadd] at h
        obtain ⟨hlen, hst⟩ := of_onData_again hctl h
        rw [Frame.dataLen_data hctl]
        exact ⟨hst, hlen, hlen ▸ hadd⟩
      · rw [step_tooLarge f hs ho hctl l (not_le.mp hle)] at h
        cases h

/-- **The frames that a call has taken**, and the length it has counted. -/
theorem steps_frames (hlim : cfg.maxMessageSize.toNat < usizeMax) (hst : Steps cfg st l st' l')
    {fs : List (Frame cfg)} (hs : st.stream = Frame.stream fs) (hmax : l.length ≤ cfg.maxMessageSize.toNat) :
    ∃ pre post, fs = pre ++ post ∧ st'.stream = Frame.stream post ∧
      l'.length = l.length + Frame.dataLen pre ∧ l'.length ≤ cfg.maxMessageSize.toNat := by
  induction hst generalizing fs with
  | refl st l => exact ⟨[], fs, rfl, hs, rfl, hmax⟩
  | head h _ ih =>
    obtain ⟨f, fs', rfl, hs₁, hlen₁, hmax₁⟩ := again_frame hlim hs hmax h
    obtain ⟨pre, post, rfl, hs₂, hlen₂, hmax₂⟩ := ih hs₁ hmax₁
    refine ⟨f :: pre, post, rfl, hs₂, ?_, hmax₂⟩
    have := Frame.dataLen_append [f] pre
    rw [List.singleton_append] at this
    omega

omit [Extension E] in
theorem onControl_ne_tooLarge {h : Header} {payload m : List UInt8} {current maximum : ℕ} :
    st.onControl h payload l ≠ .ret (.error (.messageTooLarge current maximum)) st' m := by
  intro he
  unfold onControl at he
  cases hoc : h.opcode <;> rw [hoc] at he <;> try cases he
  rcases hcl : closeAnswer payload with e | ⟨answer, _ | r⟩ <;> rw [hcl] at he <;> cases he
  exact closeAnswer_ne_tooLarge hcl

theorem onData_ne_tooLarge {h : Header} {m : List UInt8} {current maximum : ℕ} :
    st.onData cfg h l ≠ .ret (.error (.messageTooLarge current maximum)) st' m := by
  intro he
  unfold onData at he
  cases hp : place l.firstFragmentOpcode h <;> rw [hp] at he
  · cases he
  · dsimp only at he
    split at he <;> cases he
  · cases he
  all_goals
    dsimp only [finish] at he
    split at he <;> cases he

theorem of_tooLarge {current maximum : ℕ} {m : List UInt8}
    (h : st.step cfg l = .ret (.error (.messageTooLarge current maximum)) st' m) :
    st.isClosed = false ∧ ∃ header off,
      cfg.codec.decodeHeader.run st.stream = .ok (.done header off) ∧
      header.opcode.isControl = false ∧
      cfg.maxMessageSize.toNat < saturatingAdd l.length header.payloadLen := by
  unfold step at h
  by_cases hc : st.isClosed = true
  · rw [if_pos hc] at h
    cases h
  · rw [if_neg hc] at h
    refine ⟨Bool.eq_false_iff.mpr hc, ?_⟩
    rcases hd : cfg.codec.decodeHeader.run st.stream with e | ⟨header, off⟩ | n <;> rw [hd] at h
    · cases h
    · refine ⟨header, off, rfl, ?_⟩
      dsimp only [onFrame] at h
      split_ifs at h with h₁ h₂ h₃ h₄
      · cases h
      · exact absurd h onControl_ne_tooLarge
      · exact ⟨Bool.eq_false_iff.mpr h₁, h₃⟩
      · cases h
      · exact absurd h onData_ne_tooLarge
    · cases h

end Feed

/-! ## The round that discards -/

namespace Receiver

variable {r r₁ r' : Receiver}

/-- The round that finds a message too large: the buffer stays as it is after the header, and the
reader loses as many bytes as the message has accumulated. -/
theorem receiveRound_tooLarge {E : Type} [Extension E] (hc : Clean r.reader)
    (ho : r.isClosed = false) {header : Header} {off : ℕ}
    (hd : r.config.codec.decodeHeader.run r.stream = .ok (.done header off))
    (hctl : header.opcode.isControl = false) {l : Locals}
    (hmax : r.maxMessageSize.toNat < saturatingAdd l.length header.payloadLen)
    (w : World (List E)) :
    ∃ r₁ r', (r.receiveRound l).run w = (some (.ret (.error (.messageTooLarge
        (saturatingAdd l.length header.payloadLen) r.maxMessageSize.toNat)) r' l.message), w) ∧
      At r r₁ off ∧ r'.config = r₁.config ∧ r'.isClosed = r₁.isClosed ∧ r'.buffer = r₁.buffer ∧
      bytes r'.reader =
        (bytes r₁.reader).drop (saturatingAdd l.length header.payloadLen) ∧ Clean r'.reader := by
  have hspec : HeaderSpec { r with ctrlBuffer := [] } _ := receiveHeader_spec hc
  obtain ⟨r₁, hr₁, hat⟩ := hspec.done hd
  obtain ⟨reader, hdis, hbytes, hclean⟩ :=
    bytes_discard (n := saturatingAdd l.length header.payloadLen) hat.clean
  have hmax₁ : r₁.maxMessageSize = r.maxMessageSize := congrArg Config.maxMessageSize hat.config
  have hat' : At r r₁ off := ⟨hat.config, hat.isClosed, hat.buffer, hat.reader, hat.clean⟩
  refine ⟨r₁, { r₁ with reader }, ?_, hat', rfl, rfl, rfl, hbytes, hclean⟩
  rw [receiveRound, if_neg (by rw [ho]; exact Bool.false_ne_true), hr₁]
  simp only [hctl, Bool.false_eq_true, if_false, dataFrame, discardBytes, hmax₁, hmax, hdis,
    Fiber.run_bind, Fiber.run_pure, if_true]

theorem drop_eq_drop_iff {α : Type} {xs : List α} {a b : ℕ} :
    xs.drop a = xs.drop b ↔ a = b ∨ xs.length ≤ a ∧ xs.length ≤ b := by
  constructor
  · intro h
    have := congrArg List.length h
    rw [List.length_drop, List.length_drop] at this
    omega
  · rintro (rfl | ⟨ha, hb⟩)
    · rfl
    · rw [List.drop_of_length_le ha, List.drop_of_length_le hb]

/-- When `n` bytes of the reader are discarded instead of `p` bytes of the stream. -/
theorem at_discard_iff {pos n p : ℕ} (hat : At r r₁ pos) (hcfg : r'.config = r₁.config)
    (hcl : r'.isClosed = r₁.isClosed) (hbuf : r'.buffer = r₁.buffer)
    (hrd : bytes r'.reader = (bytes r₁.reader).drop n) (hclean : Clean r'.reader) (hp : 0 < p)
    (hpn : p ≤ n) (hlen : pos + p ≤ r.stream.length) :
    At r r' (pos + p) ↔ r.buffer.length ≤ pos ∧ (n = p ∨ r.stream.length = pos + p) := by
  have hstream : r.stream.length = r.buffer.length + (bytes r.reader).length := List.length_append
  have hiff : At r r' (pos + p) ↔ r'.buffer = r.buffer.drop (pos + p) ∧
      bytes r'.reader = (bytes r.reader).drop (pos + p - r.buffer.length) :=
    ⟨fun h => ⟨h.buffer, h.reader⟩,
      fun h => ⟨hcfg.trans hat.config, hcl.trans hat.isClosed, h.1, h.2, hclean⟩⟩
  rw [hiff, hbuf, hat.buffer, hrd, hat.reader, List.drop_drop, drop_eq_drop_iff, drop_eq_drop_iff]
  omega

end Receiver

/-- A call that finds a message too large, with the frames it has taken, and the receiver before and
after it discards. -/
theorem exists_of_tooLarge {E : Type} [Extension E] {r r' : Receiver} {w w' : World (List E)}
    {m m' : List UInt8} {current maximum : ℕ} (hc : Clean r.reader) {fs : List (Frame r.config)}
    (hs : r.stream = Frame.stream fs)
    (h : (r.receive m).run w = (some ⟨.error (.messageTooLarge current maximum), r', m'⟩, w')) :
    ∃ pre f post r₁, fs = pre ++ f :: post ∧ f.header.opcode.isControl = false ∧
      Frame.dataLen pre ≤ r.maxMessageSize.toNat ∧
      r.maxMessageSize.toNat < saturatingAdd (Frame.dataLen pre) f.header.payloadLen ∧
      r.At r₁ ((Frame.stream pre).length + f.head.length) ∧
      r'.config = r₁.config ∧ r'.isClosed = r₁.isClosed ∧ r'.buffer = r₁.buffer ∧
      bytes r'.reader = (bytes r₁.reader).drop
        (saturatingAdd (Frame.dataLen pre) f.header.payloadLen) ∧ Clean r'.reader := by
  have ho : r.isClosed = false := by
    by_contra hcl
    rw [Receiver.receive, Receiver.receiveLoop] at h
    simp [Receiver.receiveRound, hcl] at h
  -- the call on the stream
  obtain ⟨result, st', x, st₁, l₁, hsteps, hret⟩ :=
    Feed.exists_runs r.config (Feed.ofReceiver r w.shared) (.start m)
  have hT := Feed.Tracks.start hc ho w
  have hf : (Feed.ofReceiver r w.shared).stream.length < r.remaining + 1 := by
    rw [← r.length_stream]
    exact Nat.lt_succ_self _
  rcases Feed.sim_steps hsteps hT hf with ⟨-, r₁, m₁, w₁, hb⟩ | ⟨r₁, w₁, fuel, hrun, hf₁, hT₁⟩
  · cases h.symm.trans hb
  obtain ⟨fuel, rfl⟩ : ∃ n, fuel = n + 1 := ⟨fuel - 1, by omega⟩
  have hloop := h.symm.trans hrun
  obtain ⟨out, w₂, hround, hsim⟩ := Feed.sim_receiveRound hT₁ l₁
  rw [Receiver.receiveLoop] at hloop
  simp only [Fiber.run_bind, hround] at hloop
  rw [hret] at hsim
  have hresult : result = .error (.messageTooLarge current maximum) := by
    cases hsim with
    | ret => cases hloop; rfl
    | broken => cases hloop
  subst hresult
  obtain ⟨ho₁, header, off, hd, hctl, hmax⟩ := Feed.of_tooLarge hret
  have hlim : r.maxMessageSize.toNat < usizeMax := hmax.trans_le (Nat.min_le_right _ _)
  obtain ⟨pre, post, rfl, hpost, hlen, hle⟩ :=
    Feed.steps_frames hlim hsteps hs (Nat.zero_le _)
  have hlen₁ : l₁.length = Frame.dataLen pre := by rw [hlen, Locals.start, Nat.zero_add]
  cases post with
  | nil =>
    have hle := (Codec.exact_decodeHeader _).le hd
    have htwo := (Codec.accepts_of_decodeHeader hd).2
    rw [hpost] at hle
    simp only [Frame.stream, List.flatMap_nil, List.length_nil] at hle
    omega
  | cons f post =>
    have hdec := f.decode_append (Frame.stream post)
    rw [← Frame.stream_cons, ← hpost, hd] at hdec
    cases hdec
    rw [hlen₁] at hmax hle
    -- the receiver before the last round, and the round
    have hat₁ : r.At r₁ (Frame.stream pre).length := by
      have hat := hT₁.at_pos
      rw [hpost, hs, Frame.stream_append, List.length_append, Nat.add_sub_cancel] at hat
      exact ⟨hat.config, hat.isClosed.trans (ho₁.trans ho.symm), hat.buffer, hat.reader, hat.clean⟩
    have hmax₁ : r₁.maxMessageSize.toNat < saturatingAdd l₁.length f.header.payloadLen := by
      rw [hlen₁, show r₁.maxMessageSize = r.maxMessageSize from
        congrArg Config.maxMessageSize hat₁.config]
      exact hmax
    have hd₁ : r₁.config.codec.decodeHeader.run r₁.stream = .ok (.done f.header f.head.length) := by
      rw [hT₁.config, hT₁.stream]
      exact hd
    obtain ⟨r₂, r₃, hround', hat₂, hcfg, hcl, hbuf, hrd, hclean⟩ :=
      Receiver.receiveRound_tooLarge hat₁.clean (hT₁.isClosed.trans ho₁) hd₁ hctl hmax₁ w₁
    cases hround.symm.trans hround'
    cases hloop
    rw [hlen₁] at hrd
    exact ⟨pre, f, post, r₂, rfl, hctl, hle, hmax, hat₁.trans hat₂, hcfg, hcl, hbuf, hrd, hclean⟩

/-- **When the receiver is in step after a message that was too large.** A receiver, with any
extensions, gets frames without read errors, and a call of `receive` finds a message too large. The
frame `f` that is too large is the first one with which the payloads exceed the maximum. The
receiver then stands at the end of `f` just when the buffer held no byte of the payload of `f`
before the call, and nothing had been accumulated before `f` or nothing follows it. -/
theorem tooLarge_at_iff {E : Type} [Extension E] {r r' : Receiver} {w w' : World (List E)}
    {m m' : List UInt8} {current maximum : ℕ} (hc : Clean r.reader) (fs : List (Frame r.config))
    (hs : r.stream = Frame.stream fs)
    (h : (r.receive m).run w = (some ⟨.error (.messageTooLarge current maximum), r', m'⟩, w')) :
    ∃ pre f post, fs = pre ++ f :: post ∧ f.header.opcode.isControl = false ∧
      Frame.dataLen pre ≤ r.maxMessageSize.toNat ∧
      r.maxMessageSize.toNat < saturatingAdd (Frame.dataLen pre) f.header.payloadLen ∧
      (r.At r' (Frame.stream (pre ++ [f])).length ↔
        r.buffer.length ≤ (Frame.stream pre).length + f.head.length ∧
          (Frame.dataLen pre = 0 ∨ f.header.payloadLen = usizeMax ∨ post = [])) := by
  obtain ⟨pre, f, post, r₁, rfl, hctl, hle, hmax, hat, hcfg, hcl, hbuf, hrd, hclean⟩ :=
    exists_of_tooLarge hc hs h
  refine ⟨pre, f, post, rfl, hctl, hle, hmax, ?_⟩
  have hstream : r.stream.length = (Frame.stream pre).length + f.head.length +
      f.header.payloadLen + (Frame.stream post).length := by
    rw [hs, ← Frame.length_stream_concat, ← List.length_append, ← Frame.stream_append,
      List.append_assoc]
    rfl
  have hpost : (Frame.stream post).length = 0 ↔ post = [] := Frame.length_stream_eq_zero
  have hp : f.header.payloadLen ≤ usizeMax :=
    f.accepts.len.trans (Nat.le_pred_of_lt r.config.codec.maxDataSize.toNat_lt)
  rw [saturatingAdd] at hmax hrd
  rw [Frame.length_stream_concat, Receiver.at_discard_iff hat hcfg hcl hbuf hrd hclean (by omega)
    (by omega) (by omega), ← hpost]
  omega

/-- A server that accepts messages of at most one byte, with `buffered` in its buffer and `bs` to
read. -/
def tinyServer (buffered bs : List UInt8) : Builder Empty :=
  ((Builder.new [.data bs] .server).setBuffer buffered).setMaxMessageSize 1

/-- The message `AB`, read from the socket alone, is skipped. -/
theorem tooLarge_at_iff_single :
    ∃ r' w' m', ((tinyServer [] [0x81, 2, 65, 66]).finish.2.1.receive []).run
        ((tinyServer [] [0x81, 2, 65, 66]).world []) =
          (some ⟨.error (.messageTooLarge 2 1), r', m'⟩, w') ∧
      (tinyServer [] [0x81, 2, 65, 66]).finish.2.1.At r' 4 := by
  have hrun : ∃ r' w' m', ((tinyServer [] [0x81, 2, 65, 66]).finish.2.1.receive []).run
      ((tinyServer [] [0x81, 2, 65, 66]).world []) =
        (some ⟨.error (.messageTooLarge 2 1), r', m'⟩, w') := ⟨_, _, _, rfl⟩
  obtain ⟨r', w', m', h⟩ := hrun
  refine ⟨r', w', m', h, ?_⟩
  let f : Frame (tinyServer [] [0x81, 2, 65, 66]).finish.2.1.config :=
    ⟨[0x81, 2], { Header.new .text with payloadLen := 2 }, [65, 66], rfl, rfl⟩
  obtain ⟨pre, g, post, hfs, -, -, -, hiff⟩ := tooLarge_at_iff clean_nil.data [f] rfl h
  cases pre with
  | nil =>
    cases hfs
    exact hiff.mpr ⟨Nat.zero_le _, Or.inl rfl⟩
  | cons g' pre => simp at hfs

/-- The payload is in the buffer: no byte of it is skipped. A second fragment is too large: a byte
of the frame after it is skipped, too. -/
theorem not_at_of_tooLarge :
    (∃ r' w' m', ((tinyServer [0x81, 2, 65, 66, 0x81, 1, 67] []).finish.2.1.receive []).run
        ((tinyServer [0x81, 2, 65, 66, 0x81, 1, 67] []).world []) =
          (some ⟨.error (.messageTooLarge 2 1), r', m'⟩, w') ∧
      r'.stream = [65, 66, 0x81, 1, 67] ∧
      ¬(tinyServer [0x81, 2, 65, 66, 0x81, 1, 67] []).finish.2.1.At r' 4) ∧
    ∃ r' w' m', ((tinyServer [] [0x01, 1, 65, 0x80, 1, 66, 0x81, 1, 67]).finish.2.1.receive []).run
        ((tinyServer [] [0x01, 1, 65, 0x80, 1, 66, 0x81, 1, 67]).world []) =
          (some ⟨.error (.messageTooLarge 2 1), r', m'⟩, w') ∧
      r'.stream = [1, 67] ∧
      ¬(tinyServer [] [0x01, 1, 65, 0x80, 1, 66, 0x81, 1, 67]).finish.2.1.At r' 6 := by
  refine ⟨⟨_, _, _, rfl, rfl, fun h => ?_⟩, _, _, _, rfl, rfl, fun h => ?_⟩
  · exact absurd h.buffer (by decide)
  · exact absurd h.reader (by decide)

end Soketto
