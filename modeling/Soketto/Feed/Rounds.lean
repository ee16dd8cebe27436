import Soketto.Feed

/-!
# What a round of `receive` may do

With any reader, which may fail, any writer and any extensions.

* `Receiver.nextHeader`: the header of the frame that comes next. `Receiver.takenFrame`: the data
  frame that a round takes.
* `Receiver.Takes`: what a round may do, one case for each kind of frame and failure. The effect of
  a data frame is that of `Feed.onData`.
* **`receiveRound_cases`**: a round of an open receiver does what `Takes` says.
-/

set_option autoImplicit false

namespace Soketto

open Incremental Chunked

variable {E : Type}

/-- Does the error come from an extension? -/
def Error.isExtension : Error → Bool
  | .extension _ => true
  | _ => false

theorem isExtension_ofIo (e : IoError) : (Error.ofIo e).isExtension = false := by
  cases e <;> rfl

/-- The round of the receiver `r` that ends as the step does. -/
def Step.round (r : Receiver) : Step E → Round
  | .again _ l => .again r l
  | .ret result _ message => .ret result r message

/-- The extensions after a step. -/
def Step.exts : Step E → List E
  | .again st _ => st.exts
  | .ret _ st _ => st.exts

/-- The effect of a data frame whose payload is at the end of `message`, on extensions. -/
def Feed.dataStep [Extension E] (cfg : Config) (es : List E) (h : Header) (l : Locals) : Step E :=
  Feed.onData cfg ⟨[], false, es, []⟩ h l

namespace Receiver

/-- The header of the frame that comes next. -/
def nextHeader (self : Receiver) : Option Header :=
  match { self with ctrlBuffer := [] }.receiveHeader with
  | some (.ok header, _) => some header
  | _ => none

/-- The data frame that a round takes, with its unmasked payload: none if there is no header, if the
message gets too large or if the payload is not read as a whole. -/
def takenFrame (self : Receiver) (l : Locals) : Option (Header × List UInt8) :=
  if self.isClosed then none
  else
    match { self with ctrlBuffer := [] }.receiveHeader with
    | some (.ok header, self) =>
      if header.opcode.isControl then none
      else if saturatingAdd l.length header.payloadLen > self.maxMessageSize.toNat then none
      else
        match self.readPayload header [] with
        | (.ok (), _, payload) => some (header, payload)
        | (.error _, _, _) => none
    | _ => none

/-- What a round of an open receiver may do. -/
inductive Takes [Extension E] (r : Receiver) (l : Locals) (es : List E) : Round → List E → Prop
  /-- Nothing was read, or a control frame, or the message is too large. -/
  | failed {r' : Receiver} {e : Error} (hcfg : r'.config = r.config) (hno : r.takenFrame l = none)
      (he : e.isExtension = false) : Takes r l es (.ret (.error e) r' l.message) es
  /-- The payload was not read as a whole. -/
  | broken {r' : Receiver} {h : Header} {e : Error} {x : List UInt8} (hcfg : r'.config = r.config)
      (hno : r.takenFrame l = none) (he : e.isExtension = false) (hh : r.nextHeader = some h)
      (hx : x.length = h.payloadLen)
      (hmax : saturatingAdd l.length h.payloadLen ≤ r.maxMessageSize.toNat) :
      Takes r l es (.ret (.error e) r' (l.message ++ x)) es
  /-- A ping was answered, or a close frame without reason. -/
  | control {r' : Receiver} (hcfg : r'.config = r.config) (hno : r.takenFrame l = none) :
      Takes r l es (.again r' l) es
  | pong {r' : Receiver} {h : Header} {payload : List UInt8} (hcfg : r'.config = r.config)
      (hno : r.takenFrame l = none) (hh : r.nextHeader = some h) (hoc : h.opcode = .pong) :
      Takes r l es (.ret (.ok (.pong payload)) r' l.message) es
  | close {r' : Receiver} {reason : CloseReason} (hcfg : r'.config = r.config)
      (hno : r.takenFrame l = none) (hc : r'.isClosed = true) :
      Takes r l es (.ret (.ok (.closed reason)) r' l.message) es
  | data {r' : Receiver} {h : Header} {x : List UInt8} (hcfg : r'.config = r.config)
      (hh : r.takenFrame l = some (h, x)) (hctl : h.opcode.isControl = false)
      (hx : x.length = h.payloadLen)
      (hmax : saturatingAdd l.length h.payloadLen ≤ r.maxMessageSize.toNat) :
      Takes r l es ((Feed.dataStep r.config es h (l.append h x)).round r')
        (Feed.dataStep r.config es h (l.append h x)).exts

/-! ## Reading -/

/-- From `r` to `r'` bytes were read and nothing else was done. -/
def Reads (r r' : Receiver) : Prop := ∃ reader buffer, r' = { r with reader, buffer }

theorem Reads.refl (r : Receiver) : Reads r r := ⟨r.reader, r.buffer, rfl⟩

theorem Reads.config {r r' : Receiver} (h : Reads r r') : r'.config = r.config := by
  obtain ⟨reader, buffer, rfl⟩ := h
  rfl

theorem Reads.mode {r r' : Receiver} (h : Reads r r') : r'.mode = r.mode := by
  obtain ⟨reader, buffer, rfl⟩ := h
  rfl

theorem Reads.isClosed {r r' : Receiver} (h : Reads r r') : r'.isClosed = r.isClosed := by
  obtain ⟨reader, buffer, rfl⟩ := h
  rfl

theorem Reads.setReader {r r' : Receiver} (h : Reads r r') (reader : Source UInt8) :
    Reads r { r' with reader } := by
  obtain ⟨reader', buffer, rfl⟩ := h
  exact ⟨reader, buffer, rfl⟩

theorem reads_receiveHeaderLoop (fuel : ℕ) (self : Receiver) {r' : Receiver}
    {out : Except Error Header} (h : receiveHeaderLoop fuel self = some (out, r')) :
    Reads self r' ∧ ∀ e, out = .error e → e.isExtension = false := by
  induction fuel generalizing self with
  | zero => cases h
  | succ fuel ih =>
    rw [receiveHeaderLoop] at h
    rcases hd : self.codec.decodeHeader.run self.buffer with e | ⟨header, off⟩ | n <;>
      rw [hd] at h
    · cases h
      exact ⟨Reads.refl _, fun e he => by cases he; rfl⟩
    · cases h
      exact ⟨⟨_, _, rfl⟩, fun e he => by cases he⟩
    · dsimp only at h
      rcases hr : Soketto.read self.reader self.buffer n with ⟨e | u, reader, buffer⟩ <;>
        rw [hr] at h
      · cases h
        exact ⟨⟨_, _, rfl⟩, fun e' he => by cases he; exact isExtension_ofIo e⟩
      · obtain ⟨⟨reader', buffer', rfl⟩, herr⟩ := ih { self with reader, buffer } h
        exact ⟨⟨reader', buffer', rfl⟩, herr⟩

theorem reads_readBuffer {self r' : Receiver} {header : Header} {out : Except Error Unit}
    (h : self.readBuffer header = (out, r')) :
    Reads self r' ∧ ∀ e, out = .error e → e.isExtension = false := by
  unfold readBuffer at h
  split_ifs at h
  · cases h
    exact ⟨Reads.refl _, fun e he => by cases he⟩
  · rcases hr : readExactInto self.reader self.buffer (header.payloadLen - self.buffer.length)
      with ⟨_ | e, reader, buffer⟩ <;> rw [hr] at h <;> cases h
    · exact ⟨⟨_, _, rfl⟩, fun e he => by cases he⟩
    · exact ⟨⟨_, _, rfl⟩, fun e' he => by cases he; exact isExtension_ofIo e⟩

theorem takeBuffered_spec (self : Receiver) (required : ℕ) :
    ∃ n r' x, (∀ message, self.takeBuffered required message = (n, r', message ++ x)) ∧
      x.length + n = required ∧ Reads self r' := by
  unfold takeBuffered
  split_ifs with h₁ h₂
  · exact ⟨required, self, [], fun message => by rw [List.append_nil], Nat.zero_add _, Reads.refl _⟩
  · exact ⟨_, _, _, fun message => rfl, by omega, ⟨_, _, rfl⟩⟩
  · exact ⟨0, _, _, fun message => rfl, by rw [List.length_take]; omega, ⟨_, _, rfl⟩⟩

theorem length_readExactInto (reader : Source UInt8) (n : ℕ) :
    ∃ err reader' x, (∀ dest, readExactInto reader dest n = (err, reader', dest ++ x)) ∧
      x.length = n := by
  have hle := length_readExact_le n reader
  rcases hr : Chunked.readExact n reader with ⟨got, err, reader'⟩
  replace hle : got.length ≤ n := by rwa [hr] at hle
  refine ⟨err, reader', got ++ List.replicate (n - got.length) 0, fun dest => ?_, ?_⟩
  · rw [readExactInto, hr]
    dsimp only
    rw [List.append_assoc]
  · rw [List.length_append, List.length_replicate]
    omega

theorem readPayload_cases (self : Receiver) (header : Header) :
    ∃ out r' x, (∀ message, self.readPayload header message = (out, r', message ++ x)) ∧
      x.length = header.payloadLen ∧ Reads self r' ∧
      ∀ e, out = .error e → e.isExtension = false := by
  obtain ⟨n, r', x, ht, hlen, hreads⟩ := self.takeBuffered_spec header.payloadLen
  have hmask : ∀ message y : List UInt8, (message ++ y).take message.length ++
      applyMask header ((message ++ y).drop message.length) = message ++ applyMask header y :=
    fun message y => by rw [List.take_left, List.drop_left]
  unfold readPayload
  simp only [ht]
  by_cases hn : n = 0
  · simp only [if_pos hn, hmask]
    exact ⟨_, _, _, fun message => rfl, by rw [length_applyMask]; omega, hreads,
      fun e he => by cases he⟩
  · obtain ⟨err, reader', y, hr, hy⟩ := length_readExactInto r'.reader n
    simp only [if_neg hn, hr, List.append_assoc]
    cases err with
    | none =>
      simp only [hmask]
      refine ⟨_, _, _, fun message => rfl, ?_, hreads.setReader _, fun e he => by cases he⟩
      rw [length_applyMask, List.length_append]
      omega
    | some e =>
      refine ⟨_, _, _, fun message => rfl, by rw [List.length_append]; omega, hreads.setReader _,
        fun e' he => ?_⟩
      cases he
      exact isExtension_ofIo e

/-! ## Control frames -/

theorem eq_closed_of_okOrClosed {ok : Bool} {e : Error} (h : okOrClosed ok = .error e) :
    e = .closed := by
  cases ok <;> cases h
  rfl

theorem yields_sealHeader {mode : Mode} {header hd : Header} {data : Storage} {es es' : List E}
    (h : (sealHeader mode header data).Yields es hd es') : es' = es := by
  cases mode
  · obtain ⟨m, -, rfl⟩ := h
    rfl
  · exact h.2.symm

theorem yields_write {mode : Mode} {codec : Codec} {header : Header} {data : Storage}
    {mb : List UInt8} {es es' : List E} {out : Written}
    (h : (write mode codec header data mb).Yields es out es') :
    es' = es ∧ (∃ hd, out.codec = (codec.encodeHeader hd).2) ∧
      ∀ e, out.result = .error e → e = .closed := by
  unfold write at h
  rw [Fiber.yields_bind] at h
  obtain ⟨hd, s₁, hseal, h⟩ := h
  obtain rfl := yields_sealHeader hseal
  obtain ⟨ok, h⟩ := h
  cases ok with
  | false =>
    obtain ⟨rfl, rfl⟩ := h
    exact ⟨rfl, ⟨hd, rfl⟩, fun e he => by cases he; rfl⟩
  | true =>
    obtain ⟨ok, h⟩ := h
    obtain ⟨rfl, rfl⟩ := h
    exact ⟨rfl, ⟨hd, rfl⟩, fun e he => eq_closed_of_okOrClosed he⟩

theorem yields_flush {self : Receiver} {es es' : List E} {out : Except Error Unit}
    (h : self.flush.Yields es out es') : es' = es ∧ ∀ e, out = .error e → e = .closed := by
  unfold flush at h
  split_ifs at h
  · obtain ⟨rfl, rfl⟩ := h
    exact ⟨rfl, fun e he => by cases he⟩
  · obtain ⟨ok, rfl, rfl⟩ := h
    exact ⟨rfl, fun e he => eq_closed_of_okOrClosed he⟩

theorem isExtension_closeAnswer {data : List UInt8} {e : Error} (h : closeAnswer data = .error e) :
    e.isExtension = false := by
  unfold closeAnswer at h
  dsimp only at h
  split at h
  · split at h
    · cases h
      rfl
    · split_ifs at h
  · cases h

theorem yields_onControl {self r' : Receiver} {header : Header} {es es' : List E}
    {out : Except Error (Option CloseReason)} (h : (self.onControl header).Yields es (out, r') es') :
    es' = es ∧ r'.config = self.config ∧ (∀ e, out = .error e → e.isExtension = false) ∧
      ∀ reason, out = .ok (some reason) → r'.isClosed = true := by
  unfold onControl at h
  cases hoc : header.opcode <;> rw [hoc] at h
  case ping =>
    dsimp only at h
    rw [Fiber.yields_bind] at h
    obtain ⟨wr, s₁, hwr, h⟩ := h
    obtain ⟨rfl, ⟨hd, hcodec⟩, herr⟩ := yields_write hwr
    rw [hcodec] at h
    rcases hres : wr.result with e | u <;> rw [hres] at h
    · obtain ⟨h, rfl⟩ := h
      cases h
      rw [herr e hres]
      exact ⟨rfl, config_encodeHeader _ _ _, fun e he => (by cases he; rfl), fun _ hr => by cases hr⟩
    · dsimp only at h
      rw [Fiber.yields_bind] at h
      obtain ⟨fl, s₂, hfl, h⟩ := h
      obtain ⟨rfl, herr'⟩ := yields_flush hfl
      rcases fl with e | u
      · obtain ⟨h, rfl⟩ := h
        cases h
        rw [herr' e rfl]
        exact ⟨rfl, config_encodeHeader _ _ _, fun e he => (by cases he; rfl),
          fun _ hr => by cases hr⟩
      · obtain ⟨h, rfl⟩ := h
        cases h
        exact ⟨rfl, config_encodeHeader _ _ _, fun e he => (by cases he), fun _ hr => by cases hr⟩
  case close =>
    dsimp only at h
    rcases hca : closeAnswer self.ctrlBuffer with e | ⟨answer, reason⟩ <;> rw [hca] at h
    · obtain ⟨h, rfl⟩ := h
      cases h
      exact ⟨rfl, rfl, fun e he => (by cases he; exact isExtension_closeAnswer hca),
        fun _ hr => by cases hr⟩
    · dsimp only at h
      rw [Fiber.yields_bind] at h
      obtain ⟨wr, s₁, hwr, h⟩ := h
      obtain ⟨rfl, ⟨hd, hcodec⟩, -⟩ := yields_write hwr
      rw [hcodec, Fiber.yields_bind] at h
      obtain ⟨fl, s₂, hfl, h⟩ := h
      obtain ⟨rfl, herr'⟩ := yields_flush hfl
      have hcfg := config_encodeHeader self hd self.ctrlBuffer
      rcases fl with e | u
      · obtain ⟨h, rfl⟩ := h
        cases h
        rw [herr' e rfl]
        exact ⟨rfl, hcfg, fun e he => (by cases he; rfl), fun _ hr => by cases hr⟩
      · obtain ⟨ok, h, rfl⟩ := h
        cases h
        exact ⟨rfl, hcfg, fun e he => (by cases he), fun _ _ => rfl⟩
  all_goals
    obtain ⟨h, rfl⟩ := h
    cases h
    exact ⟨rfl, rfl, fun e he => (by cases he; try rfl), fun reason hr => by cases hr⟩

theorem yields_controlFrame [Extension E] {self : Receiver} {header : Header} {l : Locals}
    {es es' : List E} {out : Round} (h : (self.controlFrame header l).Yields es out es') :
    es' = es ∧ ∃ r', r'.config = self.config ∧
      (out = .again r' l ∨
        (∃ e, out = .ret (.error e) r' l.message ∧ e.isExtension = false) ∨
        (∃ p, out = .ret (.ok (.pong p)) r' l.message ∧ header.opcode = .pong) ∨
        ∃ reason, out = .ret (.ok (.closed reason)) r' l.message ∧ r'.isClosed = true) := by
  unfold controlFrame at h
  rcases hr : self.readBuffer header with ⟨e | u, r₁⟩ <;> rw [hr] at h
  · obtain ⟨rfl, rfl⟩ := h
    obtain ⟨hreads, herr⟩ := reads_readBuffer hr
    exact ⟨rfl, r₁, hreads.config, Or.inr (Or.inl ⟨e, rfl, herr e rfl⟩)⟩
  · have hcfg := (reads_readBuffer hr).1.config
    dsimp only at h
    split_ifs at h with hp
    · obtain ⟨rfl, rfl⟩ := h
      refine ⟨rfl, { r₁ with
        buffer := r₁.buffer.drop header.payloadLen
        ctrlBuffer := applyMask header (r₁.buffer.take header.payloadLen) }, hcfg, ?_⟩
      exact Or.inr (Or.inr (Or.inl ⟨_, rfl, hp⟩))
    · rw [Fiber.yields_bind] at h
      obtain ⟨⟨res, r₂⟩, s₁, hctl, h⟩ := h
      obtain ⟨rfl, hcfg₂, herr, hcl⟩ := yields_onControl hctl
      rcases res with e | _ | reason
      · obtain ⟨rfl, rfl⟩ := h
        exact ⟨rfl, r₂, hcfg₂.trans hcfg, Or.inr (Or.inl ⟨e, rfl, herr e rfl⟩)⟩
      · obtain ⟨rfl, rfl⟩ := h
        exact ⟨rfl, r₂, hcfg₂.trans hcfg, Or.inl rfl⟩
      · obtain ⟨rfl, rfl⟩ := h
        exact ⟨rfl, r₂, hcfg₂.trans hcfg,
          Or.inr (Or.inr (Or.inr ⟨reason, rfl, hcl reason rfl⟩))⟩

/-! ## Data frames -/

variable [Extension E]

theorem yields_decodeWithExtensions {self : Receiver} {header : Header} {message : List UInt8}
    {es es' : List E} {out : Except Error Unit × Header × List UInt8}
    (h : (self.decodeWithExtensions header message).Yields es out es') :
    let d := Feed.decode self.config (⟨[], false, es, []⟩ : Feed E) header message
    out = (d.result.mapError .extension, d.header, d.data) ∧ es' = d.ext := by
  unfold decodeWithExtensions at h
  intro d
  by_cases hx : (!self.hasExtensions) = true
  · have hd : d = ⟨.ok (), es, header, message⟩ := if_pos hx
    rw [if_pos hx] at h
    rw [hd]
    exact ⟨h.1.symm, h.2.symm⟩
  · have hd : d = Extension.decodeAll es header message := if_neg hx
    rw [if_neg hx] at h
    rw [hd]
    exact ⟨h.1.symm, h.2.symm⟩

theorem yields_finish {self : Receiver} (header : Header) (f : Header → Header) (l : Locals)
    {es es' : List E} {out : Round}
    (h : (do
      match ← self.decodeWithExtensions header l.message with
      | (.error e, _, message) => return .ret (.error e) self message
      | (.ok (), header, message) => return self.finishMessage (f header) { l with message } :
          Fiber (List E) Round).Yields es out es') :
    let st : Feed E := ⟨[], false, es, []⟩
    let d := st.decode self.config header l.message
    out = (st.finish d (f d.header).opcode l).round self ∧
      es' = (st.finish d (f d.header).opcode l).exts := by
  rw [Fiber.yields_bind] at h
  obtain ⟨dec, s₁, hdec, h⟩ := h
  obtain ⟨rfl, rfl⟩ := yields_decodeWithExtensions hdec
  intro st d
  change Fiber.Yields (match (d.result.mapError Error.extension, d.header, d.data) with
    | (.error e, _, message) => pure (Round.ret (.error e) self message)
    | (.ok (), header, message) => pure (self.finishMessage (f header) { l with message }))
    d.ext out es' at h
  unfold Feed.finish
  generalize d = d at h ⊢
  rcases hd : d.result with e | u <;> rw [hd] at h
  · exact ⟨h.1.symm, h.2.symm⟩
  · obtain ⟨rfl, rfl⟩ := h
    simp only [Receiver.finishMessage, Data.ofOpCode]
    split_ifs <;> exact ⟨rfl, rfl⟩

theorem yields_initial {self : Receiver} (header : Header) (l : Locals) {es es' : List E}
    {out : Round}
    (h : (do
      match ← self.decodeWithExtensions header l.message with
      | (.error e, _, message) => return .ret (.error e) self message
      | (.ok (), _, message) =>
        return .again self { l with firstFragmentOpcode := some header.opcode, message } :
          Fiber (List E) Round).Yields es out es') :
    let st : Feed E := ⟨[], false, es, []⟩
    let d := st.decode self.config header l.message
    let step : Step E := match d.result with
      | .error e => .ret (.error (.extension e)) { st with exts := d.ext } d.data
      | .ok () =>
        .again { st with exts := d.ext }
          { l with firstFragmentOpcode := some header.opcode, message := d.data }
    out = step.round self ∧ es' = step.exts := by
  rw [Fiber.yields_bind] at h
  obtain ⟨dec, s₁, hdec, h⟩ := h
  obtain ⟨rfl, rfl⟩ := yields_decodeWithExtensions hdec
  intro st d step
  change Fiber.Yields (match (d.result.mapError Error.extension, d.header, d.data) with
    | (.error e, _, message) => pure (Round.ret (.error e) self message)
    | (.ok (), _, message) =>
      pure (.again self { l with firstFragmentOpcode := some header.opcode, message }))
    d.ext out es' at h
  unfold step
  generalize d = d at h ⊢
  rcases hd : d.result with e | u <;> rw [hd] at h
  · exact ⟨h.1.symm, h.2.symm⟩
  · exact ⟨h.1.symm, h.2.symm⟩

theorem yields_assemble {self : Receiver} {header : Header} {l : Locals} {es es' : List E}
    {out : Round} (h : (self.assemble header l).Yields es out es') :
    out = (Feed.dataStep self.config es header l).round self ∧
      es' = (Feed.dataStep self.config es header l).exts := by
  obtain ⟨fin, rsv1, rsv2, rsv3, masked, opcode, mask, payloadLen⟩ := header
  obtain ⟨first, length, messageLen, message⟩ := l
  unfold assemble at h
  unfold Feed.dataStep Feed.onData place
  dsimp only at h ⊢
  split at h
  · cases first with
    | none => exact ⟨h.1.symm, h.2.symm⟩
    | some oc => exact ⟨h.1.symm, h.2.symm⟩
  · next hoc =>
    rw [if_neg hoc]
    cases first with
    | none =>
      exact yields_initial ⟨false, rsv1, rsv2, rsv3, masked, opcode, mask, payloadLen⟩
        ⟨none, length, messageLen, message⟩ h
    | some oc => exact ⟨h.1.symm, h.2.symm⟩
  · cases first with
    | none => exact ⟨h.1.symm, h.2.symm⟩
    | some oc =>
      exact yields_finish ⟨true, rsv1, rsv2, rsv3, masked, .continue, mask, message.length⟩
        (fun header => { header with opcode := oc }) ⟨some oc, length, messageLen, message⟩ h
  · next hoc =>
    rw [if_neg hoc]
    cases first with
    | none =>
      exact yields_finish ⟨true, rsv1, rsv2, rsv3, masked, opcode, mask, payloadLen⟩ id
        ⟨none, length, messageLen, message⟩ h
    | some oc => exact ⟨h.1.symm, h.2.symm⟩

omit [Extension E] in
theorem takenFrame_of_header {r r₁ : Receiver} {header : Header} (ho : ¬r.isClosed = true)
    (hh : ({ r with ctrlBuffer := [] } : Receiver).receiveHeader = some (.ok header, r₁))
    (l : Locals) : r.takenFrame l =
      if header.opcode.isControl then none
      else if saturatingAdd l.length header.payloadLen > r₁.maxMessageSize.toNat then none
      else
        match r₁.readPayload header [] with
        | (.ok (), _, payload) => some (header, payload)
        | (.error _, _, _) => none := by
  rw [takenFrame, if_neg ho, hh]

theorem takes_of_dataFrame {r r₁ : Receiver} {header : Header} {l : Locals} {es es' : List E}
    {out : Round} (hcfg : r₁.config = r.config) (ho : ¬r.isClosed = true)
    (hh : ({ r with ctrlBuffer := [] } : Receiver).receiveHeader = some (.ok header, r₁))
    (hctl : header.opcode.isControl = false) (h : (r₁.dataFrame header l).Yields es out es') :
    r.Takes l es out es' := by
  have hmax : r₁.maxMessageSize = r.maxMessageSize := congrArg Config.maxMessageSize hcfg
  unfold dataFrame at h
  by_cases hlen : saturatingAdd l.length header.payloadLen > r₁.maxMessageSize.toNat
  · dsimp only at h
    rw [if_pos hlen] at h
    have hno : r.takenFrame l = none := by
      rw [takenFrame_of_header ho hh, hctl, if_neg Bool.false_ne_true, if_pos hlen]
    rcases hd : discardBytes (saturatingAdd l.length header.payloadLen) r₁.reader
      with ⟨_ | e, reader⟩ <;> rw [hd] at h
    · obtain ⟨rfl, rfl⟩ := h
      exact .failed hcfg hno rfl
    · obtain ⟨rfl, rfl⟩ := h
      exact .failed hcfg hno (isExtension_ofIo e)
  · dsimp only at h
    rw [if_neg hlen] at h
    obtain ⟨res, r₂, x, hread, hx, hreads, herr⟩ := r₁.readPayload_cases header
    have hcfg₂ := hreads.config
    have hle : saturatingAdd l.length header.payloadLen ≤ r.maxMessageSize.toNat :=
      hmax ▸ not_lt.mp hlen
    rw [hread] at h
    rcases res with e | u
    · have hnext : r.nextHeader = some header := by rw [nextHeader, hh]
      have hno : r.takenFrame l = none := by
        rw [takenFrame_of_header ho hh, hctl, if_neg Bool.false_ne_true, if_neg hlen, hread]
      obtain ⟨rfl, rfl⟩ := h
      exact .broken (hcfg₂.trans hcfg) hno (herr e rfl) hnext hx hle
    · have hnext : r.takenFrame l = some (header, x) := by
        rw [takenFrame_of_header ho hh, hctl, if_neg Bool.false_ne_true, if_neg hlen, hread]
        rfl
      obtain ⟨rfl, rfl⟩ := yields_assemble h
      rw [hcfg₂.trans hcfg]
      exact .data (hcfg₂.trans hcfg) hnext hctl hx hle

/-- **What a round may do.** -/
theorem receiveRound_cases {r : Receiver} {l : Locals} {es es' : List E} {out : Option Round}
    (h : (r.receiveRound l).Yields es out es') :
    r.isClosed = true ∧ out = some (.ret (.error .closed) r l.message) ∧ es' = es ∨
      r.isClosed = false ∧ ∃ round, out = some round ∧ r.Takes l es round es' := by
  unfold receiveRound at h
  by_cases hc : r.isClosed = true
  · rw [if_pos hc] at h
    exact .inl ⟨hc, h.1.symm, h.2.symm⟩
  rw [if_neg hc] at h
  refine .inr ⟨Bool.eq_false_iff.mpr hc, ?_⟩
  obtain ⟨⟨res, r₁⟩, hh⟩ : ∃ out, ({ r with ctrlBuffer := [] } : Receiver).receiveHeader = some out :=
    receiveHeaderLoop_isSome _ (Nat.lt_succ_self _)
  rw [hh] at h
  obtain ⟨hreads, herr⟩ := reads_receiveHeaderLoop _ _ hh
  have hcfg : r₁.config = r.config := hreads.config
  rcases res with e | header
  · have hno : r.takenFrame l = none := by rw [takenFrame, if_neg hc, hh]
    obtain ⟨rfl, rfl⟩ := h
    exact ⟨_, rfl, .failed hcfg hno (herr e rfl)⟩
  have hnext : r.nextHeader = some header := by rw [nextHeader, hh]
  cases hctl : header.opcode.isControl with
  | true =>
    simp only [hctl, if_true, Fiber.yields_bind] at h
    obtain ⟨round, s₁, hround, rfl, rfl⟩ := h
    obtain ⟨rfl, r', hcfg', hout⟩ := yields_controlFrame hround
    have hno : r.takenFrame l = none := by
      rw [takenFrame_of_header hc hh, hctl, if_pos rfl]
    refine ⟨round, rfl, ?_⟩
    rcases hout with rfl | ⟨e, rfl, he⟩ | ⟨p, rfl, hp⟩ | ⟨reason, rfl, hcl'⟩
    · exact .control (hcfg'.trans hcfg) hno
    · exact .failed (hcfg'.trans hcfg) hno he
    · exact .pong (hcfg'.trans hcfg) hno hnext hp
    · exact .close (hcfg'.trans hcfg) hno hcl'
  | false =>
    simp only [hctl, Bool.false_eq_true, if_false, Fiber.yields_bind] at h
    obtain ⟨round, s₁, hround, rfl, rfl⟩ := h
    exact ⟨round, rfl, takes_of_dataFrame hcfg hc hh hctl hround⟩

end Receiver

end Soketto
