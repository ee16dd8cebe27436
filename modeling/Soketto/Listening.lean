import Soketto.Chunking
import Soketto.Delivery

/-!
# A receiver that races

What the calls of a receiver without extensions report and answer, when the other half of its
connection races with it for a writer that may fail.

* `Receiver.listen`: calls up to the first error; `gained`: what they report and append.
* **`sim_returns`**: a round ends as the step of the stream reader does, or with `Closed` because an
  answer could not be written.
* **`returns_listen`**: what is gained is the beginning of what the calls on the stream amount to,
  whatever happens to the writer. **`traces_listen`**: so are the answers.
-/

set_option autoImplicit false

namespace Soketto

open Incremental Chunked BigEndian

/-- What calls with the vectors `ms` report up to the first error, and what they append. -/
def gained : List (List UInt8) → List (Received Incoming) → List (Incoming × List UInt8)
  | m :: ms, ⟨.ok i, _, message⟩ :: outs => (i, message.drop m.length) :: gained ms outs
  | _, _ => []

/-- What calls on a stream report up to the first error, and what they append. -/
def Outcome.gain (o : Outcome) : Option (Incoming × List UInt8) :=
  match o.result with
  | .ok i => some (i, o.appended)
  | .error _ => none

theorem filterMap_gain {outs : List Outcome} {last : Outcome} {xs : List (Incoming × List UInt8)}
    {e : Error} (h : (outs.map fun o => (o.result, o.appended)) = (xs.map fun p => (.ok p.1, p.2)))
    (hlast : last.result = .error e) : (outs ++ [last]).filterMap Outcome.gain = xs := by
  induction outs generalizing xs with
  | nil =>
    obtain rfl := (List.map_eq_nil_iff.mp h.symm)
    have hgain : last.gain = none := by rw [Outcome.gain, hlast]
    exact List.filterMap_cons_none hgain
  | cons o os ih =>
    cases xs with
    | nil => cases h
    | cons x xs =>
      rw [List.map_cons, List.map_cons, List.cons.injEq, Prod.mk.injEq] at h
      have hgain : o.gain = some x := by rw [Outcome.gain, h.1.1, h.1.2]
      rw [List.cons_append, List.filterMap_cons_some hgain, ih h.2]

/-- The frames sent after a step. -/
def Step.sent {E : Type} : Step E → List Outgoing
  | .again st _ => st.sent
  | .ret _ st _ => st.sent

section Fibers

variable {E : Type} {mode : Mode} {codec : Codec} {header : Header} {data : Storage}
  {mb : List UInt8}

theorem returns_write {out : Written}
    (h : (write mode codec header data mb : Fiber (List E) Written).Returns out) :
    (∃ hd, out.codec = (codec.encodeHeader hd).2) ∧ ∃ ok, out.result = okOrClosed ok := by
  unfold write at h
  obtain ⟨hd, -, ok, h⟩ := Fiber.returns_bind.mp h
  cases ok with
  | false =>
    obtain rfl := h
    exact ⟨⟨hd, rfl⟩, false, rfl⟩
  | true =>
    obtain ⟨ok, rfl⟩ := h
    exact ⟨⟨hd, rfl⟩, ok, rfl⟩

theorem returns_flushWriter {out : Except Error Unit}
    (h : (flushWriter : Fiber (List E) (Except Error Unit)).Returns out) :
    ∃ ok, out = okOrClosed ok := by
  obtain ⟨ok, rfl⟩ := h
  exact ⟨ok, rfl⟩

namespace Receiver

variable [Extension E] {self : Receiver}

/-- Calls of `receive` one after the other with the given vectors, up to the first error. -/
def listen (self : Receiver) :
    List (List UInt8) → Fiber (List E) (Option (List (Received Incoming)))
  | [] => return some []
  | m :: ms => do
    match ← self.receive m with
    | none => return none
    | some ⟨.error e, self, message⟩ => return some [⟨.error e, self, message⟩]
    | some ⟨.ok i, self, message⟩ =>
      match ← self.listen ms with
      | none => return none
      | some outs => return some (⟨.ok i, self, message⟩ :: outs)

theorem exists_dataFrame (hx : self.hasExtensions = false) (header : Header) (l : Locals) :
    ∃ out, (self.dataFrame header l : Fiber (List E) Round) = pure out := by
  have hassemble : ∀ (r : Receiver) (h : Header) (l : Locals), r.hasExtensions = false →
      ∃ out, (r.assemble h l : Fiber (List E) Round) = pure out := by
    intro r h l hr
    have hplain : ∀ h m, (r.decodeWithExtensions h m : Fiber (List E) _) = pure (.ok (), h, m) :=
      fun h m => by rw [decodeWithExtensions, hr]; rfl
    unfold assemble
    simp only [hplain]
    split
    · split <;> exact ⟨_, rfl⟩
    · split <;> exact ⟨_, rfl⟩
    · split <;> exact ⟨_, rfl⟩
    · split <;> exact ⟨_, rfl⟩
  unfold dataFrame
  dsimp only
  split_ifs
  · split <;> exact ⟨_, rfl⟩
  · obtain ⟨out, r', x, hr, -, hreads, -⟩ := self.readPayload_cases header
    obtain ⟨reader, buffer, rfl⟩ := hreads
    rw [hr]
    rcases out with e | u
    · exact ⟨_, rfl⟩
    · exact hassemble _ _ _ hx

end Receiver

end Fibers

/-! ## Rounds -/

namespace Feed

variable {E : Type} {r₀ r : Receiver} {w₀ w : World (List E)} {st : Feed E}

theorem sim_returns_onControl (hw₀ : ¬w₀.Healthy) (hT : Tracks r₀ w₀ r w st)
    (ho : st.isClosed = false) (header : Header) (hne : header.opcode ≠ .pong) (l : Locals)
    {out : Round}
    (h : ((do
      match ← r.onControl header with
      | (.error e, self) => return .ret (.error e) self l.message
      | (.ok (some reason), self) => return .ret (.ok (.closed reason)) self l.message
      | (.ok none, self) => return .again self l : Fiber (List E) Round)).Returns out) :
    Sim r₀ w₀ (out, w) (st.onControl header r.ctrlBuffer l) := by
  have hopen : r.isClosed = false := hT.isClosed.trans ho
  have hreply : ∀ f, Tracks r₀ w₀ r w (st.reply f) :=
    fun f => hT.reply f rfl fun hw => absurd hw hw₀
  have hflush : ∀ codec ctrlBuffer,
      (({ r with codec, ctrlBuffer } : Receiver).flush : Fiber (List E) _) = flushWriter :=
    fun codec ctrlBuffer => by simp only [Receiver.flush, hopen, Bool.false_eq_true, if_false]
  obtain ⟨answered, hctl, hret⟩ := Fiber.returns_bind.mp h
  unfold Receiver.onControl at hctl
  unfold Feed.onControl
  cases hoc : header.opcode <;> rw [hoc] at hctl
  case ping =>
    obtain ⟨wr, hwr, hctl⟩ := Fiber.returns_bind.mp hctl
    obtain ⟨⟨hd, hcodec⟩, ok, hres⟩ := returns_write hwr
    rw [hres] at hctl
    cases ok with
    | false =>
      obtain rfl := hctl
      obtain rfl := hret
      exact .broken hw₀
    | true =>
      obtain ⟨fl, hfl, hctl⟩ := Fiber.returns_bind.mp hctl
      rw [hflush] at hfl
      obtain ⟨ok, rfl⟩ := returns_flushWriter hfl
      cases ok with
      | false =>
        obtain rfl := hctl
        obtain rfl := hret
        exact .broken hw₀
      | true =>
        obtain rfl := hctl
        obtain rfl := hret
        rw [hcodec]
        exact .again ((hreply _).congr (Receiver.config_encodeHeader _ _ _) rfl rfl rfl)
  case pong => exact absurd hoc hne
  case close =>
    dsimp only at hctl ⊢
    rcases hca : closeAnswer r.ctrlBuffer with e | ⟨answer, reason⟩ <;> rw [hca] at hctl
    · obtain rfl := hctl
      obtain rfl := hret
      exact hT.ret
    · obtain ⟨wr, hwr, hctl⟩ := Fiber.returns_bind.mp hctl
      obtain ⟨⟨hd, hcodec⟩, -⟩ := returns_write hwr
      obtain ⟨fl, hfl, hctl⟩ := Fiber.returns_bind.mp hctl
      rw [show ({ r with codec := wr.codec } : Receiver) =
        { r with codec := wr.codec, ctrlBuffer := r.ctrlBuffer } from rfl, hflush] at hfl
      obtain ⟨ok, rfl⟩ := returns_flushWriter hfl
      cases ok with
      | false =>
        obtain rfl := hctl
        obtain rfl := hret
        exact .broken hw₀
      | true =>
        obtain ⟨ok, hctl⟩ := hctl
        obtain rfl := hctl
        have hclose := ((hreply ⟨answer, answerData reason⟩).congr
          (Receiver.config_encodeHeader r hd r.ctrlBuffer) rfl rfl rfl).close
          (show w.shared = w.shared from rfl) fun hw => absurd hw hw₀
        rw [← hcodec] at hclose
        cases reason with
        | none =>
          obtain rfl := hret
          exact .again hclose
        | some reason =>
          obtain rfl := hret
          exact hclose.ret
  all_goals
    obtain rfl := hctl
    obtain rfl := hret
    exact hT.ret

variable [Extension E]

/-- **A round ends as the step does**, or with `Closed` because an answer could not be written. -/
theorem sim_returns (hx : r₀.hasExtensions = false) (hw₀ : ¬w₀.Healthy) (hT : Tracks r₀ w₀ r w st)
    (l : Locals) {out : Option Round}
    (h : (r.receiveRound l : Fiber (List E) (Option Round)).Returns out) :
    ∃ round, out = some round ∧ Sim r₀ w₀ (round, w) (st.step r₀.config l) := by
  unfold Receiver.receiveRound at h
  unfold Feed.step
  by_cases hcl : st.isClosed = true
  · rw [if_pos (hT.isClosed.trans hcl)] at h
    rw [if_pos hcl]
    obtain rfl := h
    exact ⟨_, rfl, hT.lost id rfl⟩
  rw [if_neg (by rw [hT.isClosed]; exact hcl)] at h
  rw [if_neg hcl]
  have ho : st.isClosed = false := Bool.eq_false_iff.mpr hcl
  have hT₀ : Tracks r₀ w₀ { r with ctrlBuffer := [] } w st := hT.congr rfl rfl rfl rfl
  have hspec := Receiver.receiveHeader_spec hT₀.at_pos.clean
  have hdec : r₀.config.codec.decodeHeader.run st.stream =
      ({ r with ctrlBuffer := [] } : Receiver).config.codec.decodeHeader.run
        ({ r with ctrlBuffer := [] } : Receiver).stream := by
    rw [hT₀.config, hT₀.stream]
  rcases hd : r₀.config.codec.decodeHeader.run st.stream with e | ⟨header, off⟩ | n
  · obtain ⟨r', hr'⟩ := hspec.error (hdec.symm.trans hd)
    rw [hr'] at h
    obtain rfl := h
    exact ⟨_, rfl, hT.lost id rfl⟩
  · obtain ⟨r', hr', hat⟩ := hspec.done (hdec.symm.trans hd)
    have hT' := hT₀.advance hat ((Codec.exact_decodeHeader _).le hd)
    rw [hr'] at h
    dsimp only at h ⊢
    cases hctl : header.opcode.isControl with
    | false =>
      rw [hctl, if_neg Bool.false_ne_true] at h
      have hext : r'.hasExtensions = false := (congrArg Config.hasExtensions hT'.config).trans hx
      obtain ⟨round, hround⟩ := Receiver.exists_dataFrame (E := E) hext header l
      have hsim := sim_dataFrame hT' hctl l
      rw [hround] at h hsim
      obtain rfl := h
      exact ⟨_, rfl, hsim⟩
    | true =>
      rw [hctl, if_pos rfl] at h
      obtain ⟨round, hround, rfl⟩ := Fiber.returns_bind.mp h
      refine ⟨_, rfl, ?_⟩
      rw [Feed.onFrame, hctl, if_pos rfl]
      unfold Receiver.controlFrame at hround
      split_ifs with hlen
      · obtain ⟨r'', hr''⟩ := Receiver.readBuffer_of_lt hT'.at_pos.clean header
          (by rw [hT'.stream]; exact hlen)
        rw [hr''] at hround
        obtain rfl := hround
        exact hT.lost id rfl
      · obtain ⟨r'', hr'', htake, hat'⟩ := Receiver.readBuffer_of_le hT'.at_pos.clean header
          (by rw [hT'.stream]; exact Nat.le_of_not_lt hlen)
        have hT'' : Tracks r₀ w₀ { r'' with
            buffer := r''.buffer.drop header.payloadLen
            ctrlBuffer := applyMask header (r''.buffer.take header.payloadLen) } w
            { st with stream := (st.stream.drop off).drop header.payloadLen } :=
          (hT'.advance hat' (Nat.le_of_not_lt hlen)).congr rfl rfl rfl rfl
        rw [hr''] at hround
        dsimp only at hround
        rw [htake, hT'.stream] at hround hT''
        by_cases hp : header.opcode = .pong
        · rw [if_pos hp] at hround
          obtain rfl := hround
          dsimp only [Feed.onControl]
          rw [hp]
          exact hT''.ret
        · rw [if_neg hp] at hround
          exact sim_returns_onControl hw₀ hT'' ho header hp l hround
  · obtain ⟨r', hr'⟩ := hspec.needMore (hdec.symm.trans hd)
    rw [hr'] at h
    obtain rfl := h
    exact ⟨_, rfl, hT.lost id rfl⟩

/-! ## Answers -/

omit [Extension E] in
theorem sent_onControl (st : Feed E) (h : Header) (payload : List UInt8) (l : Locals) :
    (st.onControl h payload l).sent = st.sent ++ (answerTo h payload).toList := by
  unfold Feed.onControl answerTo
  cases h.opcode with
  | ping => rfl
  | close =>
    dsimp only
    rcases closeAnswer payload with e | ⟨answer, _ | r⟩
    · exact (List.append_nil _).symm
    · rfl
    · rfl
  | _ => exact (List.append_nil _).symm

theorem sent_onData (cfg : Config) (st : Feed E) (h : Header) (l : Locals) :
    (st.onData cfg h l).sent = st.sent := by
  have hfinish : ∀ (d : Decoded (List E)) oc l, (st.finish d oc l).sent = st.sent := fun d oc l => by
    unfold Feed.finish
    split <;> rfl
  unfold Feed.onData
  split
  · rfl
  · rfl
  · dsimp only
    split <;> rfl
  · exact hfinish _ _ _
  · exact hfinish _ _ _

/-- **A step adds the answer** of the receiver at its state. -/
theorem sent_step (hT : Tracks r₀ w₀ r w st) (l : Locals) :
    (st.step r₀.config l).sent = st.sent ++ r.answer.toList := by
  unfold Receiver.answer Feed.step
  by_cases hcl : st.isClosed = true
  · rw [if_pos hcl, if_pos (hT.isClosed.trans hcl)]
    exact (List.append_nil _).symm
  have hopen : ¬r.isClosed = true := fun h => hcl (hT.isClosed.symm.trans h)
  rw [if_neg hcl, if_neg hopen]
  have hT₀ : Tracks r₀ w₀ { r with ctrlBuffer := [] } w st := hT.congr rfl rfl rfl rfl
  have hspec := Receiver.receiveHeader_spec hT₀.at_pos.clean
  have hdec : r₀.config.codec.decodeHeader.run st.stream =
      ({ r with ctrlBuffer := [] } : Receiver).config.codec.decodeHeader.run
        ({ r with ctrlBuffer := [] } : Receiver).stream := by
    rw [hT₀.config, hT₀.stream]
  rcases hd : r₀.config.codec.decodeHeader.run st.stream with e | ⟨header, off⟩ | n
  · obtain ⟨r', hr'⟩ := hspec.error (hdec.symm.trans hd)
    rw [hr']
    exact (List.append_nil _).symm
  · obtain ⟨r', hr', hat⟩ := hspec.done (hdec.symm.trans hd)
    have hT' := hT₀.advance hat ((Codec.exact_decodeHeader _).le hd)
    rw [hr']
    dsimp only [Feed.onFrame]
    cases hctl : header.opcode.isControl with
    | false =>
      simp only [Bool.false_eq_true, if_false]
      split_ifs
      · exact (List.append_nil _).symm
      · exact (List.append_nil _).symm
      · rw [sent_onData]
        exact (List.append_nil _).symm
    | true =>
      simp only [if_true]
      unfold Receiver.controlAnswer
      split_ifs with hlen
      · obtain ⟨r'', hr''⟩ := Receiver.readBuffer_of_lt hT'.at_pos.clean header
          (by rw [hT'.stream]; exact hlen)
        rw [hr'']
        exact (List.append_nil _).symm
      · obtain ⟨r'', hr'', htake, -⟩ := Receiver.readBuffer_of_le hT'.at_pos.clean header
          (by rw [hT'.stream]; exact Nat.le_of_not_lt hlen)
        rw [hr'']
        dsimp only
        rw [htake, hT'.stream, sent_onControl]
  · obtain ⟨r', hr'⟩ := hspec.needMore (hdec.symm.trans hd)
    rw [hr']
    exact (List.append_nil _).symm

/-! ## Calls -/

/-- What a call leaves: the result of the call on the stream, or `Closed` because an answer could not
be written. -/
def Ends (r₀ : Receiver) (w₀ w : World (List E)) (result : Except Error Incoming) (st' : Feed E)
    (message : List UInt8) (out : Option (Received Incoming)) : Prop :=
  (∃ r', out = some ⟨result, r', message⟩ ∧ (InSync result → Tracks r₀ w₀ r' w st')) ∨
    ∃ r' m, out = some ⟨.error .closed, r', m⟩

omit [Extension E] in
theorem hasExtensions_of_tracks (hx : r₀.hasExtensions = false) (hT : Tracks r₀ w₀ r w st) :
    r.hasExtensions = false := (congrArg Config.hasExtensions hT.config).trans hx

/-- **A call ends as the call on the stream does**, whatever happens to the writer. -/
theorem returns_loop (hx : r₀.hasExtensions = false) (hw₀ : ¬w₀.Healthy)
    {result : Except Error Incoming} {st' : Feed E} {l : Locals} {message : List UInt8}
    (hr : Runs r₀.config st l result st' message) (hT : Tracks r₀ w₀ r w st) {fuel : ℕ}
    (hf : st.stream.length < fuel) {out : Option (Received Incoming)}
    (h : (r.receiveLoop fuel l : Fiber (List E) _).Returns out) :
    Ends r₀ w₀ w result st' message out := by
  obtain ⟨st₁, l₁, hs, hret⟩ := hr
  induction hs generalizing r fuel with
  | refl st l =>
    obtain ⟨fuel, rfl⟩ : ∃ n, fuel = n + 1 := ⟨fuel - 1, by omega⟩
    obtain ⟨round, hround, hrest⟩ := Fiber.returns_bind.mp h
    obtain ⟨round, rfl, hsim⟩ := sim_returns hx hw₀ hT l hround
    rw [hret] at hsim
    cases hsim with
    | ret hT' =>
      obtain rfl := hrest
      exact Or.inl ⟨_, rfl, hT'⟩
    | broken =>
      obtain rfl := hrest
      exact Or.inr ⟨_, _, rfl⟩
  | @head st st₂ st₁ l l₂ l₁ hstep hs ih =>
    have hlt := length_of_again hstep
    obtain ⟨fuel, rfl⟩ : ∃ n, fuel = n + 1 := ⟨fuel - 1, by omega⟩
    obtain ⟨round, hround, hrest⟩ := Fiber.returns_bind.mp h
    obtain ⟨round, rfl, hsim⟩ := sim_returns hx hw₀ hT l hround
    rw [hstep] at hsim
    cases hsim with
    | again hT' => exact ih hT' (by omega) hrest hret
    | broken =>
      obtain rfl := hrest
      exact Or.inr ⟨_, _, rfl⟩

/-- **A call writes the answers of the call on the stream**, or the first of them if an answer could
not be written. -/
theorem traces_loop (hx : r₀.hasExtensions = false) (hw₀ : ¬w₀.Healthy)
    {result : Except Error Incoming} {st' : Feed E} {l : Locals} {message : List UInt8}
    (hr : Runs r₀.config st l result st' message) (hT : Tracks r₀ w₀ r w st) {fuel : ℕ}
    (hf : st.stream.length < fuel) {out : Option (Received Incoming)} {secs : List (List UInt8)}
    {c' : Option (List UInt8)}
    (h : (r.receiveLoop fuel l : Fiber (List E) _).Traces none secs out c') :
    c' = none ∧ ∃ rs more, WriteFrames r₀.mode secs rs ∧ st'.sent = st.sent ++ (rs ++ more) ∧
      (∀ f ∈ rs, ∃ r' : Receiver, r'.answer = some f) ∧
      (more ≠ [] → ∃ r' m, out = some ⟨.error .closed, r', m⟩) := by
  have hmode : ∀ {r : Receiver} {st : Feed E}, Tracks r₀ w₀ r w st → r.mode = r₀.mode :=
    fun hT => congrArg Config.mode hT.config
  have hans : ∀ {r : Receiver}, ∀ f ∈ r.answer.toList, ∃ r' : Receiver, r'.answer = some f :=
    fun f hf => ⟨_, Option.mem_toList.mp hf⟩
  obtain ⟨st₁, l₁, hs, hret⟩ := hr
  induction hs generalizing r fuel secs with
  | refl st l =>
    obtain ⟨fuel, rfl⟩ : ∃ n, fuel = n + 1 := ⟨fuel - 1, by omega⟩
    obtain ⟨secs₁, secs₂, round, c₁, rfl, hround, hrest⟩ := Fiber.traces_bind.mp h
    obtain ⟨round, rfl, hsim⟩ := sim_returns hx hw₀ hT l hround.returns
    obtain ⟨rfl, -, -, hw⟩ := Receiver.traces_receiveRound hround
    have hsent := sent_step hT l
    rw [hret] at hsim hsent
    replace hsent : st'.sent = st.sent ++ r.answer.toList := hsent
    rw [hmode hT] at hw
    cases hsim with
    | ret hT' =>
      obtain ⟨rfl, rfl, rfl⟩ := hrest
      exact ⟨rfl, _, [], by rw [List.append_nil]; exact hw, by rw [List.append_nil]; exact hsent,
        hans, fun h => absurd rfl h⟩
    | broken =>
      obtain ⟨rfl, rfl, rfl⟩ := hrest
      exact ⟨rfl, _, [], by rw [List.append_nil]; exact hw, by rw [List.append_nil]; exact hsent,
        hans, fun h => absurd rfl h⟩
  | @head st st₂ st₁ l l₂ l₁ hstep hs ih =>
    have hlt := length_of_again hstep
    obtain ⟨fuel, rfl⟩ : ∃ n, fuel = n + 1 := ⟨fuel - 1, by omega⟩
    obtain ⟨secs₁, secs₂, round, c₁, rfl, hround, hrest⟩ := Fiber.traces_bind.mp h
    obtain ⟨round, rfl, hsim⟩ := sim_returns hx hw₀ hT l hround.returns
    obtain ⟨rfl, -, -, hw⟩ := Receiver.traces_receiveRound hround
    have hsent := sent_step hT l
    rw [hstep] at hsim hsent
    replace hsent : st₂.sent = st.sent ++ r.answer.toList := hsent
    rw [hmode hT] at hw
    cases hsim with
    | again hT' =>
      obtain ⟨rfl, rs, more, hw', hsent', hans', hmore⟩ := ih hT' (by omega) hrest hret
      refine ⟨rfl, r.answer.toList ++ rs, more, hw.append hw', ?_, fun f hf => ?_, hmore⟩
      · rw [hsent', hsent, List.append_assoc, List.append_assoc]
      · rcases List.mem_append.mp hf with hf | hf
        · exact hans f hf
        · exact hans' f hf
    | broken =>
      obtain ⟨rfl, rfl, rfl⟩ := hrest
      have hruns : Runs r₀.config st₂ l₂ result st' message := ⟨st₁, l₁, hs, hret⟩
      obtain ⟨more, hmore⟩ := hruns.sent
      refine ⟨rfl, r.answer.toList, more, by rw [List.append_nil]; exact hw, ?_, hans,
        fun _ => ⟨_, _, rfl⟩⟩
      rw [← List.append_assoc, ← hsent, hmore]

/-- The calls go on to an error. -/
def Fails (outs : List Outcome) : Prop := ∃ o ∈ outs, ∃ e, o.result = .error e

theorem not_fails_nil : ¬Fails [] := by
  rintro ⟨o, ho, -⟩
  cases ho

theorem Fails.tail {o : Outcome} {outs : List Outcome} (h : Fails (o :: outs)) {i : Incoming}
    (ho : o.result = .ok i) : Fails outs := by
  obtain ⟨o', ho', e, he⟩ := h
  rcases List.mem_cons.mp ho' with rfl | ho'
  · rw [ho] at he
    cases he
  · exact ⟨o', ho', e, he⟩

/-- **What is gained** is the beginning of what the calls on the stream amount to, up to an error. -/
theorem returns_listen (hx : r₀.hasExtensions = false) (hw₀ : ¬w₀.Healthy) {s : List UInt8}
    {outs : List Outcome} (hr : Receives r₀.config s st outs)
    (hend : Fails outs) (hT : Tracks r₀ w₀ r w st)
    {ms : List (List UInt8)} {out : Option (List (Received Incoming))}
    (h : (r.listen ms : Fiber (List E) _).Returns out) :
    ∃ got, out = some got ∧ gained ms got <+: outs.filterMap Outcome.gain := by
  induction outs generalizing st r ms out with
  | nil => exact absurd hend not_fails_nil
  | cons o os ih =>
    cases ms with
    | nil =>
      obtain rfl := h
      exact ⟨[], rfl, List.nil_prefix⟩
    | cons m ms =>
      obtain ⟨st', hrun, -, -, hrest⟩ := hr
      obtain ⟨call, hcall, hnext⟩ := Fiber.returns_bind.mp h
      have hfuel : st.stream.length < r.remaining + 1 := by
        rw [← hT.stream, r.length_stream]
        exact Nat.lt_succ_self _
      rcases returns_loop hx hw₀ (hrun.under hx m) hT hfuel hcall with
        ⟨r', rfl, hT'⟩ | ⟨r', m', rfl⟩
      · cases hres : o.result with
        | error e =>
          rw [hres] at hnext
          obtain rfl := hnext
          exact ⟨_, rfl, List.nil_prefix⟩
        | ok i =>
          rw [hres] at hnext hrest hT'
          obtain ⟨more, hmore, hret⟩ := Fiber.returns_bind.mp hnext
          obtain ⟨got, rfl, hgot⟩ := ih hrest (hend.tail hres) (hT' trivial) hmore
          obtain rfl := hret
          refine ⟨_, rfl, ?_⟩
          have hgain : o.gain = some (i, o.appended) := by rw [Outcome.gain, hres]
          rw [List.filterMap_cons_some hgain, gained, List.drop_left]
          exact (List.prefix_cons_inj _).mpr hgot
      · obtain rfl := hnext
        exact ⟨_, rfl, List.nil_prefix⟩

theorem disciplined_listen (r : Receiver) (ms : List (List UInt8)) :
    (r.listen ms : Fiber (List E) _).Disciplined := by
  induction ms generalizing r with
  | nil => rfl
  | cons m ms ih =>
    refine (Receiver.disciplined_receiveLoop _ r (.start m)).bind fun out => ?_
    rcases out with _ | ⟨e | i, r', m'⟩
    · rfl
    · rfl
    · refine (ih r').bind fun outs => ?_
      rcases outs with _ | outs <;> rfl

/-- **What is written** is the beginning of the answers of the calls on the stream. -/
theorem traces_listen (hx : r₀.hasExtensions = false) (hw₀ : ¬w₀.Healthy) {s : List UInt8}
    {outs : List Outcome} (hr : Receives r₀.config s st outs)
    (hend : Fails outs) (hT : Tracks r₀ w₀ r w st)
    {ms : List (List UInt8)} {out : Option (List (Received Incoming))}
    {secs : List (List UInt8)} {c' : Option (List UInt8)}
    (h : (r.listen ms : Fiber (List E) _).Traces none secs out c') :
    ∃ rs, WriteFrames r₀.mode secs rs ∧ rs <+: outs.flatMap Outcome.replies ∧
      ∀ f ∈ rs, ∃ r' : Receiver, r'.answer = some f := by
  induction outs generalizing st r ms out secs c' with
  | nil => exact absurd hend not_fails_nil
  | cons o os ih =>
    cases ms with
    | nil =>
      obtain ⟨rfl, rfl, rfl⟩ := h
      exact ⟨[], writeFrames_nil, List.nil_prefix, by simp⟩
    | cons m ms =>
      obtain ⟨st', hrun, hsent, -, hrest⟩ := hr
      obtain ⟨secs₁, secs₂, call, c₁, rfl, hcall, hnext⟩ := Fiber.traces_bind.mp h
      have hfuel : st.stream.length < r.remaining + 1 := by
        rw [← hT.stream, r.length_stream]
        exact Nat.lt_succ_self _
      obtain ⟨rfl, rs, more, hw, hsent', hans, hmore⟩ :=
        traces_loop hx hw₀ (hrun.under hx m) hT hfuel hcall
      have hreplies : o.replies = rs ++ more :=
        List.append_cancel_left (hsent.symm.trans hsent')
      have hstop : ∀ {m'' : List UInt8} {e : Error} {r' : Receiver},
          call = some ⟨.error e, r', m''⟩ → secs₂ = [] := by
        rintro m'' e r' rfl
        exact hnext.2.1
      have hdone : secs₂ = [] →
          ∃ rs, WriteFrames r₀.mode (secs₁ ++ secs₂) rs ∧
            rs <+: (o :: os).flatMap Outcome.replies ∧
            ∀ f ∈ rs, ∃ r' : Receiver, r'.answer = some f := by
        rintro rfl
        refine ⟨rs, by rw [List.append_nil]; exact hw, ?_, hans⟩
        rw [List.flatMap_cons, hreplies, List.append_assoc]
        exact List.prefix_append _ _
      rcases returns_loop hx hw₀ (hrun.under hx m) hT hfuel hcall.returns with
        ⟨r', rfl, hT'⟩ | ⟨r', m', rfl⟩
      · cases hres : o.result with
        | error e =>
          rw [hres] at hstop
          exact hdone (hstop rfl)
        | ok i =>
          rw [hres] at hnext hrest hT' hmore
          have hall : more = [] := by
            by_contra hne
            obtain ⟨r'', m'', he⟩ := hmore hne
            cases he
          obtain ⟨secs₃, secs₄, got, c₂, rfl, hlisten, hret⟩ := Fiber.traces_bind.mp hnext
          obtain ⟨rs', hw', hpre, hans'⟩ := ih hrest (hend.tail hres) (hT' trivial) hlisten
          have hsecs : secs₄ = [] := by
            rcases got with _ | got
            · exact hret.2.1
            · exact hret.2.1
          refine ⟨rs ++ rs', by rw [hsecs, List.append_nil]; exact hw.append hw', ?_, fun f hf => ?_⟩
          · rw [List.flatMap_cons, hreplies, hall, List.append_nil]
            exact (List.prefix_append_right_inj _).mpr hpre
          · rcases List.mem_append.mp hf with hf | hf
            · exact hans f hf
            · exact hans' f hf
      · exact hdone (hstop rfl)

/-! ## All calls up to an error -/

/-- **Calls go on to an error**, since the stream has an end. -/
theorem exists_fails {cfg : Config} {s : List UInt8} (hb : OnBoundary cfg s st) :
    ∃ outs, Receives cfg s st outs ∧ Fails outs := by
  induction hn : st.stream.length using Nat.strong_induction_on generalizing st with
  | _ n ih =>
    obtain ⟨o, st', hrun, hsent, hpos, hok⟩ := exists_outcome hb
    cases hres : o.result with
    | error e =>
      exact ⟨[o], ⟨st', hrun, hsent, hpos, by rw [hres]⟩, o, List.mem_singleton_self _, e, hres⟩
    | ok i =>
      have hlt := hrun.length_le (by rw [hres]; trivial)
      obtain ⟨outs, hr, o', ho', he⟩ := ih _ (by omega) (hok i hres).2 rfl
      exact ⟨o :: outs, ⟨st', hrun, hsent, hpos, by rw [hres]; exact hr⟩, o',
        List.mem_cons_of_mem _ ho', he⟩

theorem exists_calls (r : Receiver) : ∃ outs,
    Receives r.config r.stream (ofReceiver r ([] : List E)) outs ∧ Fails outs :=
  exists_fails ⟨0, rfl, Nat.zero_le _, .zero⟩

/-- **Calls are deterministic**, up to an error. -/
theorem receives_unique {cfg : Config} {s : List UInt8} {outs outs' : List Outcome}
    (h : Receives cfg s st outs) (hf : Fails outs) (h' : Receives cfg s st outs')
    (hf' : Fails outs') :
    outs.filterMap Outcome.gain = outs'.filterMap Outcome.gain ∧
      outs.flatMap Outcome.replies = outs'.flatMap Outcome.replies := by
  induction outs generalizing st outs' with
  | nil => exact absurd hf not_fails_nil
  | cons o os ih =>
    cases outs' with
    | nil => exact absurd hf' not_fails_nil
    | cons o' os' =>
      obtain ⟨st₁, hrun, hsent, -, hrest⟩ := h
      obtain ⟨st₁', hrun', hsent', -, hrest'⟩ := h'
      obtain ⟨hres, rfl, happ⟩ := hrun.unique hrun'
      have hreplies : o.replies = o'.replies := List.append_cancel_left (hsent.symm.trans hsent')
      have hgain : o.gain = o'.gain := by rw [Outcome.gain, Outcome.gain, hres, happ]
      rw [← hres] at hrest'
      cases hok : o.result with
      | error e =>
        rw [hok] at hrest hrest'
        rw [hrest, hrest', List.filterMap_cons, List.filterMap_cons, hgain]
        exact ⟨rfl, by rw [List.flatMap_cons, List.flatMap_cons, hreplies]⟩
      | ok i =>
        rw [hok] at hrest hrest'
        obtain ⟨h₁, h₂⟩ := ih hrest (hf.tail hok) hrest' (hf'.tail (hres.symm.trans hok))
        rw [List.filterMap_cons, List.filterMap_cons, hgain, h₁, List.flatMap_cons,
          List.flatMap_cons, hreplies, h₂]
        exact ⟨rfl, rfl⟩

end Feed

end Soketto
