import Soketto.Connection.Send
import Soketto.Connection.Write
import Soketto.Feed.Rounds

/-!
# Closing

What a call of `receive` does when a close frame comes, with any reader, any writer and any
extensions.

* `Receiver.takenClose`: the payload of the close frame that a round consumes. `Comes`: the rounds
  of a call up to some moment.
* **`remaining_round`**: each round that does not fail consumes a frame, so that a call returns.
* `Terminal`: the payloads after which a receiver is closed; **`close_terminal_iff`**.
* `World.FlushesAfterFrame`: the flush after a frame succeeds; **`close_reason_iff`**.
-/

set_option autoImplicit false

namespace Soketto

open Incremental Chunked

variable {E : Type}

/-! ## Rounds that go on -/

/-- The receiver after a round that did not fail. -/
def Round.kept : Round → Option Receiver
  | .again self _ => some self
  | .ret (.ok _) self _ => some self
  | .ret (.error _) _ _ => none

theorem Step.eq_of_kept {st : Step E} {r r' : Receiver} (h : (st.round r).kept = some r') : r' = r := by
  rcases st with ⟨_, _⟩ | ⟨_ | _, _, _⟩ <;> cases h <;> rfl

namespace Receiver

theorem remaining_receiveHeaderLoop (fuel : ℕ) (self : Receiver) {r' : Receiver} {header : Header}
    (h : receiveHeaderLoop fuel self = some (.ok header, r')) :
    r'.remaining + 2 ≤ self.remaining := by
  induction fuel generalizing self with
  | zero => cases h
  | succ fuel ih =>
    rw [receiveHeaderLoop] at h
    rcases hd : self.codec.decodeHeader.run self.buffer with e | ⟨header', off⟩ | n <;>
      rw [hd] at h
    · cases h
    · cases h
      have htwo := (Codec.accepts_of_decodeHeader hd).2
      have hle := (Codec.exact_decodeHeader _).le hd
      simp only [remaining, List.length_drop]
      omega
    · dsimp only at h
      rcases hread : Soketto.read self.reader self.buffer n with ⟨e | u, reader, buffer⟩
      · rw [hread] at h
        cases h
      · have hprogress := read_progress hread
        rw [hread] at h
        have hrec := ih _ h
        simp only [remaining] at hrec ⊢
        omega

theorem remaining_readBuffer {self r' : Receiver} {header : Header}
    (h : self.readBuffer header = (.ok (), r')) : r'.remaining = self.remaining := by
  unfold readBuffer at h
  split_ifs at h with hle
  · cases h
    rfl
  · rcases hr : Chunked.readExact (header.payloadLen - self.buffer.length) self.reader
      with ⟨got, _ | e, reader⟩ <;> rw [readExactInto, hr] at h <;> cases h
    obtain ⟨hbytes, hlen⟩ := readExact_none hr
    simp only [remaining, hbytes, List.length_append, List.length_replicate]
    omega

theorem remaining_readPayload {self r' : Receiver} {header : Header} {m m' : List UInt8}
    (h : self.readPayload header m = (.ok (), r', m')) : r'.remaining ≤ self.remaining := by
  unfold readPayload takeBuffered at h
  split_ifs at h with h₁ h₂
  all_goals
    dsimp only at h
    split_ifs at h with h₃
  · cases h
    rfl
  · rcases hr : Chunked.readExact header.payloadLen self.reader with ⟨got, _ | e, reader⟩ <;>
      rw [readExactInto, hr] at h <;> cases h
    have hbytes := (readExact_none hr).1
    simp only [remaining, hbytes, List.length_append]
    omega
  · cases h
    simp only [remaining, List.length_nil]
    omega
  · rcases hr : Chunked.readExact (header.payloadLen - self.buffer.length) self.reader
      with ⟨got, _ | e, reader⟩ <;> rw [readExactInto, hr] at h <;> cases h
    have hbytes := (readExact_none hr).1
    simp only [remaining, hbytes, List.length_append, List.length_nil]
    omega
  · cases h
    simp only [remaining, List.length_drop]
    omega
  · exact absurd rfl h₃

theorem remaining_onControl {self r' : Receiver} {header : Header} {es es' : List E}
    {out : Except Error (Option CloseReason)} (h : (self.onControl header).Yields es (out, r') es') :
    r'.remaining = self.remaining := by
  unfold onControl at h
  cases hoc : header.opcode <;> rw [hoc] at h
  case ping =>
    dsimp only at h
    rw [Fiber.yields_bind] at h
    obtain ⟨wr, s₁, -, h⟩ := h
    rcases hres : wr.result with e | u <;> rw [hres] at h
    · cases h.1
      rfl
    · dsimp only at h
      rw [Fiber.yields_bind] at h
      obtain ⟨fl, s₂, -, h⟩ := h
      rcases fl with e | u <;> cases h.1 <;> rfl
  case close =>
    dsimp only at h
    rcases hca : closeAnswer self.ctrlBuffer with e | ⟨answer, reason⟩ <;> rw [hca] at h
    · cases h.1
      rfl
    · dsimp only at h
      rw [Fiber.yields_bind] at h
      obtain ⟨wr, s₁, -, h⟩ := h
      rw [Fiber.yields_bind] at h
      obtain ⟨fl, s₂, -, h⟩ := h
      rcases fl with e | u
      · cases h.1
        rfl
      · obtain ⟨ok, h, -⟩ := h
        cases h
        rfl
  all_goals
    cases h.1
    rfl

theorem remaining_controlFrame [Extension E] {self r' : Receiver} {header : Header} {l : Locals}
    {out : Round} {es es' : List E} (h : (self.controlFrame header l).Yields es out es')
    (hkept : out.kept = some r') : r'.remaining ≤ self.remaining := by
  unfold controlFrame at h
  rcases hr : self.readBuffer header with ⟨e | u, r₁⟩ <;> rw [hr] at h
  · cases h.1
    cases hkept
  · have hbuffer := remaining_readBuffer hr
    dsimp only at h
    split_ifs at h with hp
    · cases h.1
      cases hkept
      simp only [remaining, List.length_drop] at hbuffer ⊢
      omega
    · rw [Fiber.yields_bind] at h
      obtain ⟨⟨res, r₂⟩, s₁, hon, h⟩ := h
      have hsame := remaining_onControl hon
      rcases res with e | _ | reason <;> cases h.1 <;> cases hkept
      all_goals
        simp only [remaining, List.length_drop] at hsame hbuffer ⊢
        omega

theorem remaining_dataFrame [Extension E] {self r' : Receiver} {header : Header} {l : Locals}
    {out : Round} {es es' : List E} (h : (self.dataFrame header l).Yields es out es')
    (hkept : out.kept = some r') : r'.remaining ≤ self.remaining := by
  unfold dataFrame at h
  dsimp only at h
  split_ifs at h with hmax
  · rcases hd : discardBytes (saturatingAdd l.length header.payloadLen) self.reader with
      ⟨_ | e, reader⟩ <;> rw [hd] at h <;> cases h.1 <;> cases hkept
  · rcases hp : self.readPayload header l.message with ⟨e | u, r₁, m⟩ <;> rw [hp] at h
    · cases h.1
      cases hkept
    · have hpay := remaining_readPayload hp
      obtain ⟨hout, -⟩ := yields_assemble h
      rw [hout] at hkept
      rw [Step.eq_of_kept hkept]
      exact hpay

/-- **A round that does not fail has consumed a frame.** -/
theorem remaining_round [Extension E] {r r' : Receiver} {l : Locals} {out : Round} {es es' : List E}
    (h : (r.receiveRound l).Yields es (some out) es') (hkept : out.kept = some r') :
    r'.remaining + 2 ≤ r.remaining := by
  unfold receiveRound at h
  by_cases hc : r.isClosed = true
  · rw [if_pos hc] at h
    cases h.1
    cases hkept
  rw [if_neg hc] at h
  rcases hh : ({ r with ctrlBuffer := [] } : Receiver).receiveHeader with _ | ⟨e | header, r₁⟩ <;>
    rw [hh] at h
  · cases h.1
  · cases h.1
    cases hkept
  have hheader : r₁.remaining + 2 ≤ r.remaining :=
    remaining_receiveHeaderLoop _ { r with ctrlBuffer := [] } hh
  have hframe : r'.remaining ≤ r₁.remaining := by
    cases hctl : header.opcode.isControl with
    | true =>
      simp only [hctl, if_true, Fiber.yields_bind] at h
      obtain ⟨round, s₁, hround, heq, -⟩ := h
      cases heq
      exact remaining_controlFrame hround hkept
    | false =>
      simp only [hctl, Bool.false_eq_true, if_false, Fiber.yields_bind] at h
      obtain ⟨round, s₁, hround, heq, -⟩ := h
      cases heq
      exact remaining_dataFrame hround hkept
  omega

/-- **A round that goes on has consumed a frame.** -/
theorem remaining_again [Extension E] {r r' : Receiver} {l l' : Locals} {es es' : List E}
    (h : (r.receiveRound l).Yields es (some (.again r' l')) es') :
    r'.remaining + 2 ≤ r.remaining := remaining_round h rfl

/-! ## Close frames -/

/-- The payload of the close frame that a round consumes. -/
def takenClose (self : Receiver) : Option (List UInt8) :=
  if self.isClosed then none
  else
    match { self with ctrlBuffer := [] }.receiveHeader with
    | some (.ok header, self) =>
      if header.opcode = .close then
        match self.readBuffer header with
        | (.ok (), self) => some (applyMask header (self.buffer.take header.payloadLen))
        | (.error _, _) => none
      else none
    | _ => none

/-- The round after a close frame was answered. -/
def closeRound (l : Locals) : Except Error (Option CloseReason) × Receiver → Round
  | (.error e, self) => .ret (.error e) self l.message
  | (.ok (some reason), self) => .ret (.ok (.closed reason)) self l.message
  | (.ok none, self) => .again self l

theorem run_takenClose [Extension E] {r : Receiver} {p : List UInt8} (hp : r.takenClose = some p) :
    ∃ (header : Header) (r₁ : Receiver),
      header.opcode = .close ∧ r₁.isClosed = false ∧ r₁.ctrlBuffer = p ∧
      ∀ l (w : World (List E)), (r.receiveRound l).run w =
        (some (closeRound l ((r₁.onControl header).run w).1), ((r₁.onControl header).run w).2) := by
  unfold takenClose at hp
  split_ifs at hp with hc
  rcases hh : ({ r with ctrlBuffer := [] } : Receiver).receiveHeader with _ | ⟨e | header, r₁⟩ <;>
    rw [hh] at hp
  · cases hp
  · cases hp
  dsimp only at hp
  split_ifs at hp with hoc
  rcases hr : r₁.readBuffer header with ⟨e | u, r₂⟩ <;> rw [hr] at hp
  · cases hp
  have hopen : r₂.isClosed = false := by
    obtain ⟨_, _, rfl⟩ := (reads_receiveHeaderLoop _ _ hh).1
    obtain ⟨_, _, rfl⟩ := (reads_readBuffer hr).1
    exact Bool.eq_false_iff.mpr hc
  refine ⟨header, { r₂ with
    buffer := r₂.buffer.drop header.payloadLen
    ctrlBuffer := applyMask header (r₂.buffer.take header.payloadLen) }, hoc, hopen,
    Option.some.inj hp, fun l w => ?_⟩
  have hctl : header.opcode.isControl = true := by rw [hoc]; rfl
  have hpong : header.opcode ≠ .pong := by rw [hoc]; decide
  unfold receiveRound
  rw [if_neg hc, hh]
  simp only [hctl, if_true, controlFrame, hr, if_neg hpong, Fiber.run_bind, Fiber.run_pure]
  generalize Fiber.run _ w = out
  rcases out with ⟨⟨e | _ | reason, r₃⟩, w'⟩ <;> rfl

end Receiver

/-- The outcomes that are left after a frame was written. A closed writer refuses the header, and
after a failure of the header the payload is not written. -/
def afterFrame {σ : Type} (w : World σ) : List (Option ℕ) :=
  if w.closed then w.outcomes
  else
    match w.outcomes with
    | some _ :: os => os
    | os => os.tail.tail

theorem outcomes_write {σ : Type} (mode : Mode) (codec : Codec) (header : Header) (data : Storage)
    (mb : List UInt8) (w : World σ) :
    ((write mode codec header data mb).run w).2.outcomes = afterFrame w := by
  obtain ⟨wire, closed, outcomes, shared, randoms⟩ := w
  unfold write
  simp only [Fiber.run_bind, run_sealHeader, Fiber.run_lock, Fiber.run_writeAll]
  cases closed with
  | true => rfl
  | false =>
    rcases outcomes with _ | ⟨_ | k, _ | ⟨_ | k', os⟩⟩ <;> rfl

/-- The flush after a frame succeeds. -/
def FlushesAfterFrame {σ : Type} (w : World σ) : Prop := (afterFrame w).headD none = none

theorem flush_eq {σ : Type} (w : World σ) : w.flush.1 = true ↔ w.outcomes.headD none = none := by
  obtain ⟨wire, closed, outcomes, shared, randoms⟩ := w
  rcases outcomes with _ | ⟨_ | k, os⟩ <;> simp [World.flush]

theorem run_onControl_close {r : Receiver} (ho : r.isClosed = false) {header : Header}
    (hoc : header.opcode = .close) (w : World (List E)) :
    (∃ e, closeAnswer r.ctrlBuffer = .error e ∧ (r.onControl header).run w = ((.error e, r), w)) ∨
      ∃ answer reason, closeAnswer r.ctrlBuffer = .ok (answer, reason) ∧ ∃ r' w',
        (FlushesAfterFrame w ∧ r'.isClosed = true ∧
            (r.onControl header).run w = ((.ok reason, r'), w') ∨
          ¬FlushesAfterFrame w ∧ r'.isClosed = false ∧
            (r.onControl header).run w = ((.error .closed, r'), w')) := by
  unfold Receiver.onControl
  rw [hoc]
  dsimp only
  rcases hca : closeAnswer r.ctrlBuffer with e | ⟨answer, reason⟩
  · exact Or.inl ⟨e, rfl, rfl⟩
  refine Or.inr ⟨answer, reason, rfl, ?_⟩
  have hout := outcomes_write r.mode r.codec answer (.unique (answerData reason)) [] w
  rcases hw : (write r.mode r.codec answer (.unique (answerData reason)) []).run w with ⟨wr, w₁⟩
  rw [hw] at hout
  have hflush := flush_eq w₁
  rw [hout] at hflush
  simp only [Fiber.run_bind, hw, Receiver.flush, ho, Bool.false_eq_true, if_false, flushWriter,
    Fiber.run_lock, Fiber.run_flush, Fiber.run_unlock, Fiber.run_pure]
  rcases hfl : w₁.flush with ⟨ok, w₂⟩
  rw [hfl] at hflush
  cases ok with
  | true => exact ⟨_, _, Or.inl ⟨hflush.mp rfl, rfl, rfl⟩⟩
  | false => exact ⟨_, _, Or.inr ⟨fun h => (by cases hflush.mpr h), rfl, rfl⟩⟩

/-! ## Calls -/

/-- The rounds of a call, from the receiver `r` with the locals `l` in the world `w` on. -/
inductive Comes [Extension E] (r : Receiver) (l : Locals) (w : World (List E)) :
    Receiver → Locals → World (List E) → Prop
  | refl : Comes r l w r l w
  | tail {s s' : Receiver} {k k' : Locals} {v v' : World (List E)} (h : Comes r l w s k v)
      (hr : (s.receiveRound k).run v = (some (.again s' k'), v')) : Comes r l w s' k' v'

section

variable [Extension E] {r s : Receiver} {l k : Locals} {w v : World (List E)}

theorem Comes.receiveLoop (h : Comes r l w s k v) {fuel : ℕ} (hf : r.remaining < fuel) :
    ∃ fuel', s.remaining < fuel' ∧
      (r.receiveLoop fuel l).run w = (s.receiveLoop fuel' k).run v := by
  induction h with
  | refl => exact ⟨fuel, hf, rfl⟩
  | @tail s s' k k' v v' _ hr ih =>
    obtain ⟨fuel', hlt, heq⟩ := ih
    obtain ⟨n, rfl⟩ : ∃ n, fuel' = n + 1 := ⟨fuel' - 1, by omega⟩
    have hy := Fiber.yields_run (s.receiveRound k) v
    rw [hr] at hy
    have hdec := Receiver.remaining_again hy
    refine ⟨n, by omega, ?_⟩
    rw [heq, Receiver.receiveLoop]
    simp only [Fiber.run_bind, hr]

theorem receiveLoop_closed (hc : r.isClosed = true) (fuel : ℕ) (l : Locals) (w : World (List E)) :
    (r.receiveLoop (fuel + 1) l).run w = (some ⟨.error .closed, r, l.message⟩, w) := by
  simp only [Receiver.receiveLoop, Receiver.receiveRound, hc, if_true, Fiber.run_bind,
    Fiber.run_pure]

theorem receive_closed (hc : r.isClosed = true) (m : List UInt8) (w : World (List E)) :
    (r.receive m).run w = (some ⟨.error .closed, r, m⟩, w) :=
  receiveLoop_closed hc _ _ w

theorem receiveData_closed (hc : r.isClosed = true) (m : List UInt8) (w : World (List E)) :
    (r.receiveData m).run w = (some ⟨.error .closed, r, m⟩, w) := by
  rw [Receiver.receiveData, Receiver.receiveDataLoop]
  simp only [Fiber.run_bind, receive_closed hc, Fiber.run_pure]

/-- A round that consumes a close frame: there is no answer to it, or the flush after the answer
succeeds and the receiver is closed, or the flush fails and the receiver stays open. -/
theorem run_close_round {p : List UInt8} (hp : s.takenClose = some p) (k : Locals)
    (v : World (List E)) :
    (∃ e s' v', closeAnswer p = .error e ∧ s'.isClosed = false ∧
        (s.receiveRound k).run v = (some (.ret (.error e) s' k.message), v')) ∨
      ∃ answer reason s' v', closeAnswer p = .ok (answer, reason) ∧
        (FlushesAfterFrame v ∧ s'.isClosed = true ∧
            (s.receiveRound k).run v = (some (Receiver.closeRound k (.ok reason, s')), v') ∨
          ¬FlushesAfterFrame v ∧ s'.isClosed = false ∧
            (s.receiveRound k).run v = (some (.ret (.error .closed) s' k.message), v')) := by
  obtain ⟨header, r₁, hoc, ho, hctrl, hrun⟩ := Receiver.run_takenClose (E := E) hp
  rcases run_onControl_close ho hoc v with ⟨e, hca, h⟩ | ⟨answer, reason, hca, r', w', h⟩
  · rw [hctrl] at hca
    exact Or.inl ⟨e, r₁, v, hca, ho, by rw [hrun, h]; rfl⟩
  · rw [hctrl] at hca
    refine Or.inr ⟨answer, reason, r', w', hca, ?_⟩
    rcases h with ⟨hfl, hcl, h⟩ | ⟨hfl, hop, h⟩
    · exact Or.inl ⟨hfl, hcl, by rw [hrun, h]⟩
    · exact Or.inr ⟨hfl, hop, by rw [hrun, h]; rfl⟩

theorem Comes.receive_ret {m : List UInt8} (h : Comes r (.start m) w s k v)
    {result : Except Error Incoming} {s' : Receiver} {m' : List UInt8} {v' : World (List E)}
    (hr : (s.receiveRound k).run v = (some (.ret result s' m'), v')) :
    (r.receive m).run w = (some ⟨result, s', m'⟩, v') := by
  obtain ⟨fuel, hlt, heq⟩ := h.receiveLoop (Nat.lt_succ_self r.remaining)
  obtain ⟨n, rfl⟩ : ∃ n, fuel = n + 1 := ⟨fuel - 1, by omega⟩
  rw [Receiver.receive, heq, Receiver.receiveLoop]
  simp only [Fiber.run_bind, hr, Fiber.run_pure]

end

/-! ## The payload of a close frame -/

/-- A close frame with this payload closes a receiver: there is no reason, or it is UTF-8. -/
def Terminal (p : List UInt8) : Prop :=
  p.length < 2 ∨ (String.fromUTF8? ⟨(p.drop 2).toArray⟩).isSome = true

theorem closeAnswer_of_lt {p : List UInt8} (h : p.length < 2) :
    closeAnswer p = .ok (Header.new .close, none) := by
  match p, h with
  | [], _ => rfl
  | [_], _ => rfl

theorem closeAnswer_of_isSome {p : List UInt8} (h : 2 ≤ p.length)
    (hs : (String.fromUTF8? ⟨(p.drop 2).toArray⟩).isSome = true) :
    ∃ reason, closeAnswer p = .ok (Header.new .close, some reason) := by
  match p, h with
  | d₀ :: d₁ :: reason, _ =>
    obtain ⟨descr, hd⟩ := Option.isSome_iff_exists.mp hs
    unfold closeAnswer
    simp only [List.drop_succ_cons, List.drop_zero] at hd
    simp only [hd]
    split_ifs
    · exact ⟨_, rfl⟩
    · exact ⟨_, rfl⟩

theorem closeAnswer_of_not_terminal {p : List UInt8} (h : ¬Terminal p) :
    closeAnswer p = .error (.utf8 (p.drop 2)) := by
  obtain ⟨hlen, hs⟩ := not_or.mp h
  match p, hlen, hs with
  | [], hlen, _ => exact absurd (by decide) hlen
  | [_], hlen, _ => exact absurd (by simp) hlen
  | d₀ :: d₁ :: reason, _, hs =>
    have hd : String.fromUTF8? ⟨reason.toArray⟩ = none := Option.not_isSome_iff_eq_none.mp hs
    unfold closeAnswer
    simp only [hd]
    rfl

/-- There is an answer just to the payloads that close a receiver. -/
theorem terminal_iff {p : List UInt8} :
    Terminal p ↔ ∃ answer reason, closeAnswer p = .ok (answer, reason) := by
  constructor
  · intro h
    by_cases hlen : p.length < 2
    · exact ⟨_, _, closeAnswer_of_lt hlen⟩
    · obtain ⟨reason, h⟩ := closeAnswer_of_isSome (not_lt.mp hlen) (h.resolve_left hlen)
      exact ⟨_, _, h⟩
  · rintro ⟨answer, reason, h⟩
    by_contra hn
    cases (closeAnswer_of_not_terminal hn).symm.trans h

/-- **When the reason of the peer is returned.** A call of `receive`, with any reader and writer,
comes to a close frame with a code and a reason that is UTF-8. It returns the reason of
`closeAnswer`, and leaves the receiver closed, just when the flush after the answer succeeds. The
answer and the close of the writer may fail. -/
theorem close_reason_iff [Extension E] {r s : Receiver} {m p : List UInt8} {k : Locals}
    {w v : World (List E)} (h : Comes r (.start m) w s k v) (hp : s.takenClose = some p)
    (hcode : 2 ≤ p.length) (hutf8 : (String.fromUTF8? ⟨(p.drop 2).toArray⟩).isSome = true) :
    ∃ answer reason, closeAnswer p = .ok (answer, some reason) ∧
      ((∃ r' m' w', (r.receive m).run w = (some ⟨.ok (.closed reason), r', m'⟩, w') ∧
        r'.isClosed = true) ↔ FlushesAfterFrame v) := by
  obtain ⟨reason, hca⟩ := closeAnswer_of_isSome hcode hutf8
  refine ⟨_, reason, hca, ?_⟩
  rcases run_close_round hp k v with ⟨e, s', v', hca', -⟩ | ⟨answer, reason', s', v', hca', hround⟩
  · cases hca.symm.trans hca'
  · cases hca.symm.trans hca'
    rcases hround with ⟨hfl, hcl, hr⟩ | ⟨hfl, hop, hr⟩
    · exact iff_of_true ⟨s', _, v', h.receive_ret hr, hcl⟩ hfl
    · refine iff_of_false ?_ hfl
      rintro ⟨r', m', w', hrun, -⟩
      cases hrun.symm.trans (h.receive_ret hr)

/-- A server that is closed with code 1000 and the reason `a`. -/
def closedServer : Builder Empty := Builder.new [.data [0x88, 3, 0x03, 0xE8, 97]] .server

/-- The reason is returned although the answer cannot be written. -/
theorem close_reason_iff_refused :
    ∃ answer reason, closeAnswer [0x03, 0xE8, 97] = .ok (answer, some reason) ∧
      ∃ r' m' w', (closedServer.finish.2.1.receive []).run
          { closedServer.world [] with outcomes := [some 0, none, some 0] } =
        (some ⟨.ok (.closed reason), r', m'⟩, w') ∧ r'.isClosed = true := by
  obtain ⟨answer, reason, hca, hiff⟩ := close_reason_iff (r := closedServer.finish.2.1) (m := [])
    (w := { closedServer.world [] with outcomes := [some 0, none, some 0] }) .refl
    (p := [0x03, 0xE8, 97]) rfl (by decide) (by decide)
  exact ⟨answer, reason, hca, hiff.mpr rfl⟩

/-- The flush fails: the call reports a closed connection, and the receiver is still open. -/
theorem not_close_reason :
    ∃ r' m' w', closeAnswer [0x03, 0xE8, 97] = .ok (Header.new .close, some ⟨1000, some "a"⟩) ∧
      (closedServer.finish.2.1.receive []).run
          { closedServer.world [] with outcomes := [none, none, some 0] } =
        (some ⟨.error .closed, r', m'⟩, w') ∧ r'.isClosed = false :=
  ⟨_, _, _, rfl, rfl, rfl⟩

/-! ## After a close frame -/

/-- The receivers after later calls, whatever happens to the writer in between. -/
inductive Later (E : Type) [Extension E] (r : Receiver) : Receiver → Prop
  | refl : Later E r r
  | receive {s s' : Receiver} {m m' : List UInt8} {w w' : World (List E)}
      {result : Except Error Incoming} (h : Later E r s)
      (hr : (s.receive m).run w = (some ⟨result, s', m'⟩, w')) : Later E r s'
  | receiveData {s s' : Receiver} {m m' : List UInt8} {w w' : World (List E)}
      {result : Except Error Data} (h : Later E r s)
      (hr : (s.receiveData m).run w = (some ⟨result, s', m'⟩, w')) : Later E r s'

theorem Later.eq_of_closed [Extension E] {r s : Receiver} (h : Later E r s)
    (hc : r.isClosed = true) : s = r := by
  induction h with
  | refl => rfl
  | @receive s s' m m' w w' result _ hr ih =>
    subst ih
    cases (receive_closed hc m w).symm.trans hr
    rfl
  | @receiveData s s' m m' w w' result _ hr ih =>
    subst ih
    cases (receiveData_closed hc m w).symm.trans hr
    rfl

theorem Comes.outcomes [Extension E] {r s : Receiver} {l k : Locals} {w v : World (List E)}
    (h : Comes r l w s k v) (hw : w.outcomes = []) : v.outcomes = [] := by
  induction h with
  | refl => exact hw
  | @tail s s' k k' v v' _ hr ih =>
    have hout := Fiber.outcomes_run (s.receiveRound k) ih
    rwa [hr] at hout

/-- **When a close frame is terminal.** A call of `receive`, with any reader and a writer that does
not fail, comes to a close frame with any payload. It returns the reason or an error and leaves the
receiver closed, and every later call returns `Closed` and reads nothing, just when the payload is
shorter than a code or its reason is UTF-8. -/
theorem close_terminal_iff [Extension E] {r s : Receiver} {m p : List UInt8} {k : Locals}
    {w v : World (List E)} (hw : w.outcomes = []) (h : Comes r (.start m) w s k v)
    (hp : s.takenClose = some p) :
    (∃ result r' m' w', (r.receive m).run w = (some ⟨result, r', m'⟩, w') ∧
      ((∃ reason, result = .ok (.closed reason)) ∨ ∃ e, result = .error e) ∧ r'.isClosed = true ∧
      ∀ r₂, Later E r' r₂ → ∀ m₂ (w₂ : World (List E)),
        (r₂.receive m₂).run w₂ = (some ⟨.error .closed, r₂, m₂⟩, w₂) ∧
        (r₂.receiveData m₂).run w₂ = (some ⟨.error .closed, r₂, m₂⟩, w₂)) ↔ Terminal p := by
  have hlater : ∀ {r' : Receiver}, r'.isClosed = true → ∀ r₂, Later E r' r₂ →
      ∀ m₂ (w₂ : World (List E)), (r₂.receive m₂).run w₂ = (some ⟨.error .closed, r₂, m₂⟩, w₂) ∧
        (r₂.receiveData m₂).run w₂ = (some ⟨.error .closed, r₂, m₂⟩, w₂) := by
    intro r' hc r₂ hl m₂ w₂
    have hc₂ : r₂.isClosed = true := by rw [hl.eq_of_closed hc, hc]
    exact ⟨receive_closed hc₂ m₂ w₂, receiveData_closed hc₂ m₂ w₂⟩
  have hfl : FlushesAfterFrame v := by
    unfold FlushesAfterFrame afterFrame
    rw [h.outcomes hw]
    split_ifs <;> rfl
  rcases run_close_round hp k v with ⟨e, s', v', hca, hop, hr⟩ | ⟨answer, reason, s', v', hca, hround⟩
  · refine iff_of_false ?_ fun ht => ?_
    · rintro ⟨result, r', m', w', hrun, -, hcl, -⟩
      cases hrun.symm.trans (h.receive_ret hr)
      cases hop.symm.trans hcl
    · obtain ⟨answer, reason, hca'⟩ := terminal_iff.mp ht
      cases hca.symm.trans hca'
  · refine iff_of_true ?_ (terminal_iff.mpr ⟨answer, reason, hca⟩)
    rcases hround with ⟨-, hcl, hr⟩ | ⟨hno, -⟩
    · cases reason with
      | some reason =>
        exact ⟨_, s', _, v', h.receive_ret hr, Or.inl ⟨reason, rfl⟩, hcl, hlater hcl⟩
      | none =>
        -- the round goes on, and the next one finds the receiver closed
        have hnext : (s'.receiveRound k).run v' =
            (some (.ret (.error .closed) s' k.message), v') := by
          rw [Receiver.receiveRound, if_pos hcl, Fiber.run_pure]
        exact ⟨_, s', _, v', (h.tail hr).receive_ret hnext, Or.inr ⟨_, rfl⟩, hcl, hlater hcl⟩
    · exact absurd hfl hno

/-- A server that gets an empty close frame and the text `a`. -/
def emptyClose : Builder Empty := Builder.new [.data [0x88, 0, 0x81, 1, 97]] .server

/-- The text is never read. -/
theorem close_terminal_iff_empty :
    ∃ result r' m' w', (emptyClose.finish.2.1.receive []).run (emptyClose.world []) =
        (some ⟨result, r', m'⟩, w') ∧
      ((∃ reason, result = .ok (.closed reason)) ∨ ∃ e, result = .error e) ∧ r'.isClosed = true ∧
      ∀ r₂, Later Empty r' r₂ → ∀ m₂ (w₂ : World (List Empty)),
        (r₂.receive m₂).run w₂ = (some ⟨.error .closed, r₂, m₂⟩, w₂) ∧
        (r₂.receiveData m₂).run w₂ = (some ⟨.error .closed, r₂, m₂⟩, w₂) :=
  (close_terminal_iff (p := []) rfl .refl rfl).mpr (Or.inl (by decide))

/-- A server that gets a close frame with a reason that is not UTF-8, and the text `a`. -/
def badClose : Builder Empty := Builder.new [.data [0x88, 3, 0x03, 0xE8, 0xFF, 0x81, 1, 97]] .server

/-- The receiver is not closed, and the next call delivers the text. -/
theorem not_close_terminal :
    badClose.finish.2.1.takenClose = some [0x03, 0xE8, 0xFF] ∧
    ∃ r' w', (badClose.finish.2.1.receive []).run (badClose.world []) =
        (some ⟨.error (.utf8 [0xFF]), r', []⟩, w') ∧ r'.isClosed = false ∧
      ∃ r₂ w₂, (r'.receive []).run w' = (some ⟨.ok (.data (.text 1)), r₂, [97]⟩, w₂) :=
  ⟨rfl, _, _, rfl, rfl, _, _, rfl⟩

end Soketto
