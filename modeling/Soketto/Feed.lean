import Soketto.Connection.Write
import Soketto.Connection.Read

/-!
# The receiver as a reader of one byte stream

What a receiver is for: it takes frames off one stream of bytes, puts data frames together and
answers control frames. Buffer, reader, scratch buffers and writer are gone; what is left is the
stream, the extensions and the frames sent in reply.

* `Feed E`: the state. `Feed.step`: what one frame does to it.
* `Place`: the position of a data frame in its message.
* `Feed.Steps`, `Feed.Runs`: the frames of a call, and whole calls. Calls are deterministic
  (`Runs.unique`).
* **`step_cases`**: a step takes one frame or loses the stream. **`exists_runs`**: every call ends.
* `InSync`: the results after which the stream is not lost.
-/

set_option autoImplicit false

namespace Soketto

open Incremental BigEndian

/-- A receiver that reads `stream`. -/
structure Feed (E : Type) where
  stream : List UInt8
  isClosed : Bool
  exts : List E
  sent : List Outgoing
  deriving DecidableEq

/-- How a step of a call ends. -/
inductive Step (E : Type) where
  | again (st : Feed E) (l : Locals)
  | ret (result : Except Error Incoming) (st : Feed E) (message : List UInt8)
  deriving DecidableEq

/-- The position of a data frame in its message. -/
inductive Place where
  | unexpected
  | initial
  | intermediate
  | last (oc : OpCode)
  | single
  deriving DecidableEq

/-- Where a data frame stands, when a message with the given first opcode is open. -/
def place (first : Option OpCode) (h : Header) : Place :=
  if h.opcode = .continue then
    match first with
    | none => .unexpected
    | some oc => if h.fin then .last oc else .intermediate
  else
    match first with
    | some _ => .unexpected
    | none => if h.fin then .single else .initial

/-- The results after which the receiver stands at the end of a frame. -/
def InSync : Except Error Incoming → Prop
  | .ok _ => True
  | .error (.unexpectedOpCode _) => True
  | .error (.utf8 _) => True
  | .error (.extension _) => True
  | .error _ => False

/-- The frames that make a call return `Ok`. -/
def Completes (h : Header) : Incoming → Prop
  | .data _ => h.fin = true ∧ h.opcode.isControl = false
  | .pong _ => h.opcode = .pong
  | .closed _ => h.opcode = .close

/-- Data of the kind of an opcode. -/
def Data.ofOpCode (oc : OpCode) (n : ℕ) : Data := if oc = .text then .text n else .binary n

/-- The locals with the payload `x` of a frame at the end of `message`. -/
def Locals.append (l : Locals) (h : Header) (x : List UInt8) : Locals :=
  { l with length := saturatingAdd l.length h.payloadLen, message := l.message ++ x }

namespace Feed

variable {E : Type}

/-- A reply to the peer. -/
def reply (st : Feed E) (f : Outgoing) : Feed E := { st with sent := st.sent ++ [f] }

/-- The effect of a control frame. -/
def onControl (st : Feed E) (h : Header) (payload : List UInt8) (l : Locals) : Step E :=
  match h.opcode with
  | .ping => .again (st.reply ⟨Header.new .pong, payload⟩) l
  | .pong => .ret (.ok (.pong payload)) st l.message
  | .close =>
    match closeAnswer payload with
    | .error e => .ret (.error e) st l.message
    | .ok (answer, reason) =>
      let st := { st.reply ⟨answer, answerData reason⟩ with isClosed := true }
      match reason with
      | some r => .ret (.ok (.closed r)) st l.message
      | none => .again st l
  | oc => .ret (.error (.unexpectedOpCode oc)) st l.message

variable [Extension E]

/-- What the extensions make of a message. -/
def decode (cfg : Config) (st : Feed E) (h : Header) (message : List UInt8) : Decoded (List E) :=
  if !cfg.hasExtensions then ⟨.ok (), st.exts, h, message⟩
  else Extension.decodeAll st.exts h message

/-- The end of a message. -/
def finish (st : Feed E) (d : Decoded (List E)) (oc : OpCode) (l : Locals) : Step E :=
  match d.result with
  | .error e => .ret (.error (.extension e)) { st with exts := d.ext } d.data
  | .ok () =>
    .ret (.ok (.data (.ofOpCode oc (wrappingSub d.data.length l.messageLen))))
      { st with exts := d.ext } d.data

/-- The effect of a data frame whose payload is at the end of `message`. -/
def onData (cfg : Config) (st : Feed E) (h : Header) (l : Locals) : Step E :=
  match place l.firstFragmentOpcode h with
  | .unexpected => .ret (.error (.unexpectedOpCode h.opcode)) st l.message
  | .intermediate => .again st l
  | .initial =>
    let d := st.decode cfg h l.message
    match d.result with
    | .error e => .ret (.error (.extension e)) { st with exts := d.ext } d.data
    | .ok () =>
      .again { st with exts := d.ext }
        { l with firstFragmentOpcode := some h.opcode, message := d.data }
  | .last oc =>
    let d := st.decode cfg { h with payloadLen := l.message.length } l.message
    st.finish d oc l
  | .single =>
    let d := st.decode cfg h l.message
    st.finish d d.header.opcode l

/-- The effect of a frame whose payload comes next in the stream. -/
def onFrame (cfg : Config) (st : Feed E) (h : Header) (l : Locals) : Step E :=
  let st' := { st with stream := st.stream.drop h.payloadLen }
  let payload := applyMask h (st.stream.take h.payloadLen)
  if h.opcode.isControl then
    if st.stream.length < h.payloadLen then .ret (.error .closed) st l.message
    else st'.onControl h payload l
  else
    let length := saturatingAdd l.length h.payloadLen
    if length > cfg.maxMessageSize.toNat then
      .ret (.error (.messageTooLarge length cfg.maxMessageSize.toNat)) st l.message
    else if st.stream.length < h.payloadLen then
      .ret (.error .closed) st (l.message ++ st.stream ++
        List.replicate (h.payloadLen - st.stream.length) 0)
    else st'.onData cfg h { l with length, message := l.message ++ payload }

/-- The effect of the next frame of the stream. -/
def step (cfg : Config) (st : Feed E) (l : Locals) : Step E :=
  if st.isClosed then .ret (.error .closed) st l.message
  else
    match cfg.codec.decodeHeader.run st.stream with
    | .error e => .ret (.error (.codec e)) st l.message
    | .ok (.needMore _) => .ret (.error .closed) st l.message
    | .ok (.done h off) => { st with stream := st.stream.drop off }.onFrame cfg h l

/-- The steps of a call that is not finished. -/
inductive Steps (cfg : Config) : Feed E → Locals → Feed E → Locals → Prop
  | refl (st : Feed E) (l : Locals) : Steps cfg st l st l
  | head {st st₁ st₂ : Feed E} {l l₁ l₂ : Locals} (h : st.step cfg l = .again st₁ l₁)
      (hs : Steps cfg st₁ l₁ st₂ l₂) : Steps cfg st l st₂ l₂

/-- A finished call. -/
def Runs (cfg : Config) (st : Feed E) (l : Locals) (result : Except Error Incoming) (st' : Feed E)
    (message : List UInt8) : Prop :=
  ∃ st₁ l₁, Steps cfg st l st₁ l₁ ∧ st₁.step cfg l₁ = .ret result st' message

/-! ## Calls -/

section

variable {cfg : Config} {st st₁ st₂ st₃ : Feed E} {l l₁ l₂ l₃ : Locals}

theorem Steps.single (h : st.step cfg l = .again st₁ l₁) : Steps cfg st l st₁ l₁ :=
  .head h (.refl _ _)

theorem Steps.trans (h₁ : Steps cfg st l st₁ l₁) (h₂ : Steps cfg st₁ l₁ st₂ l₂) :
    Steps cfg st l st₂ l₂ := by
  induction h₁ with
  | refl => exact h₂
  | head h _ ih => exact .head h (ih h₂)

theorem Runs.of_steps {result : Except Error Incoming} {message : List UInt8}
    (hs : Steps cfg st l st₁ l₁) (h : Runs cfg st₁ l₁ result st₂ message) :
    Runs cfg st l result st₂ message := by
  obtain ⟨st₃, l₃, hs', hr⟩ := h
  exact ⟨st₃, l₃, hs.trans hs', hr⟩

theorem Runs.of_ret {result : Except Error Incoming} {message : List UInt8}
    (h : st.step cfg l = .ret result st₁ message) : Runs cfg st l result st₁ message :=
  ⟨st, l, .refl _ _, h⟩

/-- **The last step of a call is unique.** -/
theorem Steps.unique {r r' : Except Error Incoming} {m m' : List UInt8} {st₁' st₂' : Feed E}
    (h₁ : Steps cfg st l st₁ l₁) (e₁ : st₁.step cfg l₁ = .ret r st₁' m)
    (h₂ : Steps cfg st l st₂ l₂) (e₂ : st₂.step cfg l₂ = .ret r' st₂' m') :
    st₁ = st₂ ∧ l₁ = l₂ := by
  induction h₁ with
  | refl st l =>
    cases h₂ with
    | refl => exact ⟨rfl, rfl⟩
    | head h _ => cases e₁.symm.trans h
  | head h _ ih =>
    cases h₂ with
    | refl => cases h.symm.trans e₂
    | head h' hs =>
      cases h.symm.trans h'
      exact ih e₁ hs

theorem Runs.unique {r r' : Except Error Incoming} {m m' : List UInt8}
    (h₁ : Runs cfg st l r st₁ m) (h₂ : Runs cfg st l r' st₂ m') :
    r = r' ∧ st₁ = st₂ ∧ m = m' := by
  obtain ⟨s₁, k₁, hs₁, e₁⟩ := h₁
  obtain ⟨s₂, k₂, hs₂, e₂⟩ := h₂
  obtain ⟨rfl, rfl⟩ := hs₁.unique e₁ hs₂ e₂
  cases e₁.symm.trans e₂
  exact ⟨rfl, rfl, rfl⟩

end

/-! ## Calls end -/

/-- A step has taken the frame with header `h`: it left the stream `s`, and only added to the
frames `sent`. -/
def Took (h : Header) (s : List UInt8) (sent : List Outgoing) : Step E → Prop
  | .again st _ => st.stream = s ∧ sent <+: st.sent
  | .ret (.ok i) st _ => st.stream = s ∧ sent <+: st.sent ∧ Completes h i
  | .ret (.error _) st _ => st.stream = s ∧ sent <+: st.sent

omit [Extension E] in
theorem took_onControl (st : Feed E) (h : Header) (payload : List UInt8) (l : Locals) :
    Took h st.stream st.sent (st.onControl h payload l) := by
  unfold onControl
  cases hoc : h.opcode with
  | ping => exact ⟨rfl, List.prefix_append _ _⟩
  | pong => exact ⟨rfl, List.prefix_refl _, hoc⟩
  | close =>
    rcases closeAnswer payload with e | ⟨answer, _ | r⟩
    · exact ⟨rfl, List.prefix_refl _⟩
    · exact ⟨rfl, List.prefix_append _ _⟩
    · exact ⟨rfl, List.prefix_append _ _, hoc⟩
  | _ => exact ⟨rfl, List.prefix_refl _⟩

omit [Extension E] in
theorem took_finish (st : Feed E) {h : Header} (hfin : h.fin = true)
    (hctl : h.opcode.isControl = false) (d : Decoded (List E)) (oc : OpCode) (l : Locals) :
    Took h st.stream st.sent (st.finish d oc l) := by
  unfold finish
  rcases d.result with e | u
  · exact ⟨rfl, List.prefix_refl _⟩
  · exact ⟨rfl, List.prefix_refl _, hfin, hctl⟩

theorem place_fin {first : Option OpCode} {h : Header}
    (hp : place first h = .single ∨ ∃ oc, place first h = .last oc) : h.fin = true := by
  unfold place at hp
  split_ifs at hp <;> cases first <;> cases hf : h.fin <;> simp_all

theorem took_onData (cfg : Config) (st : Feed E) {h : Header}
    (hctl : h.opcode.isControl = false) (l : Locals) :
    Took h st.stream st.sent (st.onData cfg h l) := by
  unfold onData
  cases hp : place l.firstFragmentOpcode h with
  | unexpected => exact ⟨rfl, List.prefix_refl _⟩
  | intermediate => exact ⟨rfl, List.prefix_refl _⟩
  | initial =>
    dsimp only
    rcases (st.decode cfg h l.message).result with e | u
    · exact ⟨rfl, List.prefix_refl _⟩
    · exact ⟨rfl, List.prefix_refl _⟩
  | last oc => exact took_finish st (place_fin (Or.inr ⟨oc, hp⟩)) hctl _ _ _
  | single => exact took_finish st (place_fin (Or.inl hp)) hctl _ _ _

/-- **A step takes one frame**, a header of at least two bytes and its payload, or it fails and the
stream is lost. -/
theorem step_cases (cfg : Config) (st : Feed E) (l : Locals) :
    (∃ e st' m, st.step cfg l = .ret (.error e) st' m ∧ ¬InSync (.error e) ∧ st'.sent = st.sent) ∨
      ∃ h off, cfg.codec.decodeHeader.run st.stream = .ok (.done h off) ∧ 2 ≤ off ∧
        off + h.payloadLen ≤ st.stream.length ∧
        Took h (st.stream.drop (off + h.payloadLen)) st.sent (st.step cfg l) := by
  unfold step
  split_ifs with hc
  · exact Or.inl ⟨_, _, _, rfl, id, rfl⟩
  rcases hd : cfg.codec.decodeHeader.run st.stream with e | ⟨h, off⟩ | n
  · exact Or.inl ⟨_, _, _, rfl, id, rfl⟩
  · have hle := (Codec.exact_decodeHeader _).le hd
    have htwo := (Codec.accepts_of_decodeHeader hd).2
    dsimp only [onFrame]
    rw [List.length_drop, List.drop_drop]
    split_ifs with h₁ h₂ h₃ h₄
    · exact Or.inl ⟨_, _, _, rfl, id, rfl⟩
    · exact Or.inr ⟨h, off, rfl, htwo, by omega, took_onControl _ _ _ _⟩
    · exact Or.inl ⟨_, _, _, rfl, id, rfl⟩
    · exact Or.inl ⟨_, _, _, rfl, id, rfl⟩
    · exact Or.inr ⟨h, off, rfl, htwo, by omega, took_onData _ _ (Bool.eq_false_iff.mpr h₁) _⟩
  · exact Or.inl ⟨_, _, _, rfl, id, rfl⟩

theorem length_of_again {cfg : Config} {st st' : Feed E} {l l' : Locals}
    (h : st.step cfg l = .again st' l') : st'.stream.length + 2 ≤ st.stream.length := by
  rcases step_cases cfg st l with ⟨e, s, m, he, -⟩ | ⟨hd, off, -, htwo, hle, hs⟩
  · cases h.symm.trans he
  · rw [h] at hs
    rw [hs.1, List.length_drop]
    omega

theorem Steps.length_le {cfg : Config} {st st' : Feed E} {l l' : Locals}
    (h : Steps cfg st l st' l') : st'.stream.length ≤ st.stream.length := by
  induction h with
  | refl => exact le_refl _
  | head h _ ih =>
    have := length_of_again h
    omega

theorem Runs.length_le {cfg : Config} {st st' : Feed E} {l : Locals}
    {result : Except Error Incoming} {message : List UInt8}
    (h : Runs cfg st l result st' message) (hsync : InSync result) :
    st'.stream.length + 2 ≤ st.stream.length := by
  obtain ⟨st₁, l₁, hs, hr⟩ := h
  have hle := hs.length_le
  rcases step_cases cfg st₁ l₁ with ⟨e, s, m, he, hns, -⟩ | ⟨hd, off, -, htwo, hlen, htook⟩
  · cases hr.symm.trans he
    exact absurd hsync hns
  · have hst : st'.stream = st₁.stream.drop (off + hd.payloadLen) := by
      rw [hr] at htook
      cases result with
      | ok i => exact htook.1
      | error e => exact htook.1
    rw [hst, List.length_drop]
    omega

theorem sent_of_again {cfg : Config} {st st' : Feed E} {l l' : Locals}
    (h : st.step cfg l = .again st' l') : st.sent <+: st'.sent := by
  rcases step_cases cfg st l with ⟨e, s, m, he, -⟩ | ⟨hd, off, -, -, -, hs⟩
  · cases h.symm.trans he
  · rw [h] at hs
    exact hs.2

theorem Steps.sent {cfg : Config} {st st' : Feed E} {l l' : Locals}
    (h : Steps cfg st l st' l') : st.sent <+: st'.sent := by
  induction h with
  | refl => exact List.prefix_refl _
  | head h _ ih => exact (sent_of_again h).trans ih

theorem Runs.sent {cfg : Config} {st st' : Feed E} {l : Locals} {result : Except Error Incoming}
    {message : List UInt8} (h : Runs cfg st l result st' message) : st.sent <+: st'.sent := by
  obtain ⟨st₁, l₁, hs, hr⟩ := h
  refine hs.sent.trans ?_
  rcases step_cases cfg st₁ l₁ with ⟨e, s, m, he, -, hsent⟩ | ⟨hd, off, -, -, -, htook⟩
  · cases hr.symm.trans he
    exact hsent ▸ List.prefix_refl _
  · rw [hr] at htook
    cases result with
    | ok i => exact htook.2.1
    | error e => exact htook.2

/-- **Every call ends.** -/
theorem exists_runs (cfg : Config) (st : Feed E) (l : Locals) :
    ∃ result st' message, Runs cfg st l result st' message := by
  induction hn : st.stream.length using Nat.strong_induction_on generalizing st l with
  | _ n ih =>
    rcases hstep : st.step cfg l with ⟨st₁, l₁⟩ | ⟨result, st', message⟩
    · have hlt := length_of_again hstep
      obtain ⟨r, st', m, h⟩ := ih st₁.stream.length (by omega) st₁ l₁ rfl
      exact ⟨r, st', m, .of_steps (.single hstep) h⟩
    · exact ⟨result, st', message, .of_ret hstep⟩

end Feed

end Soketto
