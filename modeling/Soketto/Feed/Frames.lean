import Soketto.Feed.Calls

/-!
# Frames in the stream

* `Frame cfg`: a frame whose header the codec accepts, with its whole payload, as it stands in a
  stream. `Frame.stream`: the bytes of frames in a row.
* `step_control`, `step_data`, `step_tooLarge`: what a step does with a frame.
* `Leads first fs first'`: the frames that can follow each other inside of a message;
  **`steps_leads`**: what they do in a receiver without extensions.
-/

set_option autoImplicit false

namespace Soketto

open Incremental Chunked

variable {cfg : Config}

/-- A frame of a stream. -/
structure Frame (cfg : Config) where
  head : List UInt8
  header : Header
  body : List UInt8
  decode : cfg.codec.decodeHeader.run head = .ok (.done header head.length)
  length_body : body.length = header.payloadLen

namespace Frame

/-- The bytes of the frame. -/
def bytes (f : Frame cfg) : List UInt8 := f.head ++ f.body

/-- The unmasked payload. -/
def payload (f : Frame cfg) : List UInt8 := applyMask f.header f.body

/-- Is this a data frame? -/
def isData (f : Frame cfg) : Bool := !f.header.opcode.isControl

/-- The bytes of frames in a row. -/
def stream (fs : List (Frame cfg)) : List UInt8 := fs.flatMap bytes

/-- The unmasked payloads of the data frames. -/
def content (fs : List (Frame cfg)) : List UInt8 := (fs.filter isData).flatMap payload

/-- The sum of the payload lengths of the data frames. -/
def dataLen (fs : List (Frame cfg)) : ℕ := ((fs.filter isData).map (·.header.payloadLen)).sum

/-- The answers to the pings. -/
def pongs (fs : List (Frame cfg)) : List Outgoing :=
  (fs.filter (·.header.opcode = .ping)).map fun f => ⟨Header.new .pong, f.payload⟩

@[simp] theorem length_payload (f : Frame cfg) : f.payload.length = f.header.payloadLen := by
  rw [payload, length_applyMask, f.length_body]

theorem stream_cons (f : Frame cfg) (fs : List (Frame cfg)) :
    stream (f :: fs) = f.bytes ++ stream fs := List.flatMap_cons

theorem stream_append (fs gs : List (Frame cfg)) : stream (fs ++ gs) = stream fs ++ stream gs :=
  List.flatMap_append

theorem length_bytes (f : Frame cfg) : f.bytes.length = f.head.length + f.header.payloadLen := by
  rw [bytes, List.length_append, f.length_body]

theorem two_le_head (f : Frame cfg) : 2 ≤ f.head.length :=
  (Codec.accepts_of_decodeHeader f.decode).2

theorem length_stream_concat (fs : List (Frame cfg)) (f : Frame cfg) :
    (stream (fs ++ [f])).length = (stream fs).length + f.head.length + f.header.payloadLen := by
  simp [stream, length_bytes, Nat.add_assoc]

theorem length_stream_eq_zero {fs : List (Frame cfg)} : (stream fs).length = 0 ↔ fs = [] := by
  cases fs with
  | nil => exact iff_of_true rfl rfl
  | cons f fs =>
    have := f.two_le_head
    rw [stream_cons, List.length_append, length_bytes]
    exact iff_of_false (by omega) (List.cons_ne_nil f fs)

theorem content_append (fs gs : List (Frame cfg)) :
    content (fs ++ gs) = content fs ++ content gs := by
  simp only [content, List.filter_append, List.flatMap_append]

theorem dataLen_append (fs gs : List (Frame cfg)) :
    dataLen (fs ++ gs) = dataLen fs + dataLen gs := by
  simp only [dataLen, List.filter_append, List.map_append, List.sum_append]

theorem pongs_append (fs gs : List (Frame cfg)) : pongs (fs ++ gs) = pongs fs ++ pongs gs := by
  simp only [pongs, List.filter_append, List.map_append]

theorem length_content (fs : List (Frame cfg)) : (content fs).length = dataLen fs := by
  simp only [content, dataLen, List.length_flatMap, length_payload]

theorem content_data {f : Frame cfg} (h : f.header.opcode.isControl = false) :
    content [f] = f.payload := by
  simp [content, isData, h]

theorem dataLen_data {f : Frame cfg} (h : f.header.opcode.isControl = false) :
    dataLen [f] = f.header.payloadLen := by
  simp [dataLen, isData, h]

theorem pongs_data {f : Frame cfg} (h : f.header.opcode.isControl = false) : pongs [f] = [] := by
  have hne : f.header.opcode ≠ .ping := fun he => by rw [he] at h; cases h
  simp [pongs, hne]

theorem content_control {f : Frame cfg} (h : f.header.opcode.isControl = true) :
    content [f] = [] := by
  simp [content, isData, h]

theorem dataLen_control {f : Frame cfg} (h : f.header.opcode.isControl = true) :
    dataLen [f] = 0 := by
  simp [dataLen, isData, h]

theorem pongs_ping {f : Frame cfg} (h : f.header.opcode = .ping) :
    pongs [f] = [⟨Header.new .pong, f.payload⟩] := by
  simp [pongs, h]

theorem decode_append (f : Frame cfg) (s : List UInt8) :
    cfg.codec.decodeHeader.run (f.bytes ++ s) = .ok (.done f.header f.head.length) := by
  rw [bytes, List.append_assoc]
  exact (Codec.exact_decodeHeader _).done_append f.decode _

theorem accepts (f : Frame cfg) : cfg.codec.Accepts f.header :=
  (Codec.accepts_of_decodeHeader f.decode).1

/-- The frame of an accepted header, as it is encoded. -/
def ofHeader (h : Header) (ha : cfg.codec.Accepts h) (body : List UInt8)
    (hb : body.length = h.payloadLen) : Frame cfg where
  head := Codec.headerBytes h
  header := h
  body := body
  decode := by
    have := Codec.decodeHeader_headerBytes ha []
    rwa [List.append_nil] at this
  length_body := hb

end Frame

/-! ## Steps of single frames -/

namespace Feed

variable {E : Type} [Extension E] {st : Feed E} {l : Locals} {s : List UInt8}

theorem step_frame (f : Frame cfg) (hs : st.stream = f.bytes ++ s) (ho : st.isClosed = false)
    (l : Locals) : st.step cfg l = { st with stream := f.body ++ s }.onFrame cfg f.header l := by
  unfold step
  rw [ho, if_neg Bool.false_ne_true, hs, f.decode_append]
  dsimp only
  rw [Frame.bytes, List.append_assoc, List.drop_left]

theorem step_control (f : Frame cfg) (hs : st.stream = f.bytes ++ s) (ho : st.isClosed = false)
    (hctl : f.header.opcode.isControl = true) (l : Locals) :
    st.step cfg l = { st with stream := s }.onControl f.header f.payload l := by
  have hlen : ¬(f.body ++ s).length < f.header.payloadLen := by
    rw [List.length_append, f.length_body]
    omega
  rw [step_frame f hs ho, onFrame]
  dsimp only
  rw [if_pos hctl, if_neg hlen, ← f.length_body, List.drop_left, List.take_left, ho]
  rfl

theorem step_append (f : Frame cfg) (hs : st.stream = f.bytes ++ s) (ho : st.isClosed = false)
    (hctl : f.header.opcode.isControl = false) (l : Locals)
    (hmax : saturatingAdd l.length f.header.payloadLen ≤ cfg.maxMessageSize.toNat) :
    st.step cfg l =
      { st with stream := s }.onData cfg f.header (l.append f.header f.payload) := by
  have hlen : ¬(f.body ++ s).length < f.header.payloadLen := by
    rw [List.length_append, f.length_body]
    omega
  rw [step_frame f hs ho, onFrame]
  dsimp only
  rw [if_neg (by rw [hctl]; exact Bool.false_ne_true), if_neg (by omega), if_neg hlen, ho]
  congr 2
  · rw [← f.length_body, List.drop_left]
  · rw [← f.length_body, List.take_left]
    rfl

theorem step_data (f : Frame cfg) (hs : st.stream = f.bytes ++ s) (ho : st.isClosed = false)
    (hctl : f.header.opcode.isControl = false) (l : Locals)
    (hmax : l.length + f.header.payloadLen ≤ cfg.maxMessageSize.toNat) :
    st.step cfg l = { st with stream := s }.onData cfg f.header
      { l with
        length := l.length + f.header.payloadLen
        message := l.message ++ f.payload } := by
  have hsat : saturatingAdd l.length f.header.payloadLen = l.length + f.header.payloadLen :=
    Nat.min_eq_left (hmax.trans (Nat.le_pred_of_lt cfg.maxMessageSize.toNat_lt))
  rw [step_append f hs ho hctl l (by omega), Locals.append, hsat]

theorem step_tooLarge (f : Frame cfg) (hs : st.stream = f.bytes ++ s) (ho : st.isClosed = false)
    (hctl : f.header.opcode.isControl = false) (l : Locals)
    (hmax : cfg.maxMessageSize.toNat < saturatingAdd l.length f.header.payloadLen) :
    st.step cfg l = .ret (.error (.messageTooLarge (saturatingAdd l.length f.header.payloadLen)
      cfg.maxMessageSize.toNat)) { st with stream := f.body ++ s } l.message := by
  rw [step_frame f hs ho, onFrame]
  dsimp only
  rw [if_neg (by rw [hctl]; exact Bool.false_ne_true), if_pos hmax]

end Feed

/-! ## Frames of one message -/

/-- The frames `fs` can follow each other inside of a message: after them, `first'` is the opcode
of the open message, if it was `first` before. -/
inductive Leads : Option OpCode → List (Frame cfg) → Option OpCode → Prop
  | refl (first : Option OpCode) : Leads first [] first
  | ping {first first' : Option OpCode} {f : Frame cfg} {fs : List (Frame cfg)}
      (h : f.header.opcode = .ping) (hs : Leads first fs first') : Leads first (f :: fs) first'
  | data {first first' : Option OpCode} {f : Frame cfg} {fs : List (Frame cfg)}
      (h : f.header.opcode.isControl = false) (hp : place first f.header = .initial)
      (hs : Leads (some f.header.opcode) fs first') : Leads first (f :: fs) first'
  | more {first first' : Option OpCode} {f : Frame cfg} {fs : List (Frame cfg)}
      (h : f.header.opcode.isControl = false) (hp : place first f.header = .intermediate)
      (hs : Leads first fs first') : Leads first (f :: fs) first'

theorem Leads.trans {first₁ first₂ first₃ : Option OpCode} {fs gs : List (Frame cfg)}
    (h₁ : Leads first₁ fs first₂) (h₂ : Leads first₂ gs first₃) : Leads first₁ (fs ++ gs) first₃ := by
  induction h₁ with
  | refl => exact h₂
  | ping h _ ih => exact .ping h (ih h₂)
  | data h hp _ ih => exact .data h hp (ih h₂)
  | more h hp _ ih => exact .more h hp (ih h₂)

theorem Leads.of_append {first first' : Option OpCode} {fs gs : List (Frame cfg)}
    (h : Leads first (fs ++ gs) first') :
    ∃ first₁, Leads first fs first₁ ∧ Leads first₁ gs first' := by
  induction fs generalizing first with
  | nil => exact ⟨first, .refl _, h⟩
  | cons f fs ih =>
    cases h with
    | ping h hs =>
      obtain ⟨first₁, h₁, h₂⟩ := ih hs
      exact ⟨first₁, .ping h h₁, h₂⟩
    | data h hp hs =>
      obtain ⟨first₁, h₁, h₂⟩ := ih hs
      exact ⟨first₁, .data h hp h₁, h₂⟩
    | more h hp hs =>
      obtain ⟨first₁, h₁, h₂⟩ := ih hs
      exact ⟨first₁, .more h hp h₁, h₂⟩

/-- The locals after the frames `fs`. -/
def Locals.past (l : Locals) (fs : List (Frame cfg)) (first : Option OpCode) : Locals :=
  { l with
    firstFragmentOpcode := first
    length := l.length + Frame.dataLen fs
    message := l.message ++ Frame.content fs }

theorem Locals.past_past (l : Locals) (fs gs : List (Frame cfg)) (first first' : Option OpCode) :
    (l.past fs first).past gs first' = l.past (fs ++ gs) first' := by
  simp only [past, Frame.dataLen_append, Frame.content_append, Nat.add_assoc, List.append_assoc]

namespace Feed

variable {E : Type}

/-- The state after the frames `fs`, when `s` follows them. -/
def past (st : Feed E) (fs : List (Frame cfg)) (s : List UInt8) : Feed E :=
  { st with stream := s, sent := st.sent ++ Frame.pongs fs }

theorem past_past (st : Feed E) (fs gs : List (Frame cfg)) (s t : List UInt8) :
    (st.past fs t).past gs s = st.past (fs ++ gs) s := by
  simp only [past, Frame.pongs_append, List.append_assoc]

variable [Extension E]

theorem step_ping (f : Frame cfg) {st : Feed E} {s : List UInt8} (hs : st.stream = f.bytes ++ s)
    (ho : st.isClosed = false) (h : f.header.opcode = .ping) (l : Locals) :
    st.step cfg l = .again (st.past [f] s) (l.past [f] l.firstFragmentOpcode) := by
  have hctl : f.header.opcode.isControl = true := by rw [h]; rfl
  rw [step_control f hs ho hctl, onControl, h]
  simp only [past, Locals.past, reply, Frame.pongs_ping h, Frame.dataLen_control hctl,
    Frame.content_control hctl, Nat.add_zero, List.append_nil]

theorem step_past_data (gs : List (Frame cfg)) (f : Frame cfg) {st : Feed E} {l : Locals}
    {s : List UInt8} {first : Option OpCode} (ho : st.isClosed = false)
    (hctl : f.header.opcode.isControl = false)
    (hmax : l.length + Frame.dataLen (gs ++ [f]) ≤ cfg.maxMessageSize.toNat) :
    (st.past gs (f.bytes ++ s)).step cfg (l.past gs first) =
      (st.past (gs ++ [f]) s).onData cfg f.header (l.past (gs ++ [f]) first) := by
  rw [Frame.dataLen_append, Frame.dataLen_data hctl, ← Nat.add_assoc] at hmax
  have hopen : (st.past gs (f.bytes ++ s)).isClosed = false := ho
  rw [step_data f rfl hopen hctl (l.past gs first) hmax]
  simp only [past, Locals.past, Frame.pongs_append, Frame.pongs_data hctl, Frame.dataLen_append,
    Frame.dataLen_data hctl, Frame.content_append, Frame.content_data hctl, List.append_nil,
    List.append_assoc, Nat.add_assoc]

theorem steps_cons {f : Frame cfg} {fs : List (Frame cfg)} {st : Feed E} {l : Locals}
    {s t : List UInt8} {first first' : Option OpCode}
    (hstep : st.step cfg l = .again (st.past [f] t) (l.past [f] first))
    (hs : Steps cfg (st.past [f] t) (l.past [f] first) ((st.past [f] t).past fs s)
      ((l.past [f] first).past fs first')) :
    Steps cfg st l (st.past (f :: fs) s) (l.past (f :: fs) first') := by
  rw [past_past, Locals.past_past] at hs
  exact .head hstep hs

/-- **Frames inside of a message**: payloads are collected and pings are answered. -/
theorem steps_leads (hx : cfg.hasExtensions = false) {first first' : Option OpCode}
    {fs : List (Frame cfg)} (hl : Leads first fs first') {st : Feed E} {l : Locals}
    {s : List UInt8} (hs : st.stream = Frame.stream fs ++ s) (ho : st.isClosed = false)
    (hfirst : l.firstFragmentOpcode = first)
    (hmax : l.length + Frame.dataLen fs ≤ cfg.maxMessageSize.toNat) :
    Steps cfg st l (st.past fs s) (l.past fs first') := by
  induction hl generalizing st l with
  | refl first =>
    have h₁ : st.past ([] : List (Frame cfg)) s = st := by
      obtain ⟨stream, isClosed, exts, sent⟩ := st
      obtain rfl : stream = s := hs
      simp [past, Frame.pongs]
    have h₂ : l.past ([] : List (Frame cfg)) first = l := by
      obtain ⟨first', length, messageLen, message⟩ := l
      obtain rfl : first' = first := hfirst
      simp [Locals.past, Frame.dataLen, Frame.content]
    rw [h₁, h₂]
    exact .refl _ _
  | @ping first first' f fs h hl ih =>
    rw [Frame.stream_cons, List.append_assoc] at hs
    have hlen : Frame.dataLen (f :: fs) = Frame.dataLen [f] + Frame.dataLen fs :=
      Frame.dataLen_append [f] fs
    exact steps_cons (step_ping f hs ho h l)
      (ih rfl ho hfirst (by simp only [Locals.past]; omega))
  | @data first first' f fs h hp hl ih =>
    rw [Frame.stream_cons, List.append_assoc] at hs
    have hlen : Frame.dataLen (f :: fs) = f.header.payloadLen + Frame.dataLen fs := by
      rw [← Frame.dataLen_data h]
      exact Frame.dataLen_append [f] fs
    have hstep : st.step cfg l = .again (st.past [f] (Frame.stream fs ++ s))
        (l.past [f] (some f.header.opcode)) := by
      rw [step_data f hs ho h l (by omega), onData, hfirst, hp]
      simp only [decode_plain hx, past, Locals.past, Frame.pongs_data h, Frame.dataLen_data h,
        Frame.content_data h, List.append_nil]
    exact steps_cons hstep
      (ih rfl ho rfl (by simp only [Locals.past, Frame.dataLen_data h]; omega))
  | @more first first' f fs h hp hl ih =>
    rw [Frame.stream_cons, List.append_assoc] at hs
    have hlen : Frame.dataLen (f :: fs) = f.header.payloadLen + Frame.dataLen fs := by
      rw [← Frame.dataLen_data h]
      exact Frame.dataLen_append [f] fs
    have hstep : st.step cfg l = .again (st.past [f] (Frame.stream fs ++ s)) (l.past [f] first) := by
      rw [step_data f hs ho h l (by omega), onData, hfirst, hp]
      simp only [past, Locals.past, Frame.pongs_data h, Frame.dataLen_data h,
        Frame.content_data h, List.append_nil]
    exact steps_cons hstep
      (ih rfl ho rfl (by simp only [Locals.past, Frame.dataLen_data h]; omega))

end Feed

end Soketto
