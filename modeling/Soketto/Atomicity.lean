import Soketto.Connection.Sections
import Soketto.Extension.Deflate

/-!
# Frames are written as a whole

The two halves of a connection race for the writer: the sender with its operations, the receiver
with the answers to pings and close frames. The connection has no extension but deflate.

* `CompleteFrame`: a header and the payload it announces, as the peer's codec accepts them.
* `Outgoing.Proper`: the frames that are accepted; those of operations and answers are.
* `Builder.Made`: the builders that a program can make.
* **`frame_atomicity`**: at every moment the wire holds complete frames in the order in which the
  lock was acquired, besides the part of one that the holder of the lock has written; those of
  each half are the frames of its operations and answers, in order.
-/

set_option autoImplicit false

namespace Soketto

open Incremental BigEndian

/-- The bytes are a frame, complete with its payload, whose header is accepted by a peer with these
reserved bits and room for the payload. -/
def CompleteFrame (mode : Mode) (reserved : UInt8) (bs : List UInt8) : Prop :=
  ∃ h payload, (∀ c : Codec, bs = (c.encodeHeader h).1 ++ applyMask h payload) ∧
    h.payloadLen = payload.length ∧ h.masked = mode.isClient ∧
    (h.opcode.isControl = true → payload.length ≤ maxCtrlBodySize) ∧
    ∀ peer : Codec, peer.reservedBits = reserved → payload.length ≤ peer.maxDataSize.toNat →
      ∀ (c : Codec) s, peer.decodeHeader.run ((c.encodeHeader h).1 ++ s) =
        .ok (.done h (c.encodeHeader h).1.length)

namespace Outgoing

/-- A frame that is accepted once it is sealed. -/
structure Proper (reserved : UInt8) (f : Outgoing) : Prop where
  not_reserved : f.header.opcode.isReserved = false
  fin : f.header.opcode.isControl = true → f.header.fin = true
  control_len : f.header.opcode.isControl = true → f.payload.length ≤ maxCtrlBodySize
  rsv1 : f.header.rsv1 = true → (reserved &&& 4 == 0) = false
  rsv2 : f.header.rsv2 = false
  rsv3 : f.header.rsv3 = false
  masked : f.header.masked = false
  mask : f.header.mask = 0

variable {reserved : UInt8} {f : Outgoing}

theorem proper_new {oc : OpCode} {payload : List UInt8} (hoc : oc.isReserved = false)
    (hlen : oc.isControl = true → payload.length ≤ maxCtrlBodySize) :
    Proper reserved ⟨Header.new oc, payload⟩ where
  not_reserved := hoc
  fin := fun _ => rfl
  control_len := hlen
  rsv1 := fun h => nomatch h
  rsv2 := rfl
  rsv3 := rfl
  masked := rfl
  mask := rfl

theorem Proper.accepts {c : Codec} (h : f.Proper c.reservedBits) (mode : Mode) (mask : UInt32)
    (hlen : f.payload.length ≤ c.maxDataSize.toNat) : c.Accepts (f.sealed mode mask) := by
  have hf : ∀ {b : Bool} {p : Prop}, b = false → b = true → p := fun h₁ h₂ => by
    rw [h₁] at h₂
    cases h₂
  cases mode with
  | client =>
    exact ⟨h.not_reserved, h.fin, h.control_len, h.rsv1, hf h.rsv2, hf h.rsv3, hlen,
      fun hm => nomatch hm⟩
  | server =>
    exact ⟨h.not_reserved, h.fin, h.control_len, h.rsv1, hf h.rsv2, hf h.rsv3, hlen,
      fun _ => h.mask⟩

theorem masked_sealed (h : f.header.masked = false) (mode : Mode) (mask : UInt32) :
    (f.sealed mode mask).masked = mode.isClient := by
  cases mode with
  | client => rfl
  | server => exact h

theorem payloadLen_sealed (mode : Mode) (mask : UInt32) (f : Outgoing) :
    (f.sealed mode mask).payloadLen = f.payload.length := by cases mode <;> rfl

theorem opcode_sealed (mode : Mode) (mask : UInt32) (f : Outgoing) :
    (f.sealed mode mask).opcode = f.header.opcode := by cases mode <;> rfl

/-- **A proper frame is complete on the wire.** -/
theorem Proper.complete (h : f.Proper reserved) (mode : Mode) (mask : UInt32) :
    CompleteFrame mode reserved (f.bytes mode mask) := by
  refine ⟨f.sealed mode mask, f.payload, fun c => ?_, payloadLen_sealed _ _ _,
    masked_sealed h.masked _ _, fun hc => ?_, fun peer hr hlen c s => ?_⟩
  · rw [Codec.encodeHeader_fst, bytes]
  · rw [opcode_sealed] at hc
    exact h.control_len hc
  · rw [Codec.encodeHeader_fst]
    rw [← hr] at h
    exact Codec.decodeHeader_headerBytes (h.accepts mode mask hlen) s

end Outgoing

theorem WriteFrames.exists_frame {mode : Mode} {secs : List (List UInt8)} {fs : List Outgoing}
    (h : WriteFrames mode secs fs) {bs : List UInt8} (hbs : bs ∈ secs) :
    bs = [] ∨ ∃ f ∈ fs, ∃ mask, bs = f.bytes mode mask := by
  by_cases hne : bs = []
  · exact Or.inl hne
  · have hmem : bs ∈ secs.filter (· ≠ []) := List.mem_filter.mpr ⟨hbs, by simpa using hne⟩
    right
    unfold WriteFrames at h
    generalize secs.filter (· ≠ []) = written at h hmem
    induction h with
    | nil => cases hmem
    | cons hr _ ih =>
      rcases List.mem_cons.mp hmem with rfl | hmem
      · exact ⟨_, List.mem_cons_self, hr⟩
      · obtain ⟨f, hf, hr⟩ := ih hmem
        exact ⟨f, List.mem_cons_of_mem _ hf, hr⟩

/-! ## The frames of the sender -/

theorem Op.proper_frame (reserved : UInt8) {op : Op} {f : Outgoing} (h : op.frame = some f) :
    f.Proper reserved := by
  cases op with
  | sendPing data =>
    cases h
    exact Outgoing.proper_new rfl fun _ => data.length_le
  | sendPong data =>
    cases h
    exact Outgoing.proper_new rfl fun _ => data.length_le
  | flush => cases h
  | close =>
    cases h
    refine Outgoing.proper_new rfl fun _ => ?_
    rw [length_beBytes]
    decide
  | _ =>
    cases h
    exact Outgoing.proper_new rfl fun hc => nomatch hc

section Deflate

variable {F : Flate} {reserved : UInt8}

theorem Deflate.header_encode {self : Deflate F} {header : Header} {data : Storage}
    {enc : Encoded (Deflate F)} (h : self.encode header data = some enc) :
    enc.header = header ∨ ∃ n, enc.header = { header with rsv1 := true, payloadLen := n } := by
  unfold encode at h
  split_ifs at h
  · cases h
    exact Or.inl rfl
  · split at h
    · cases h
    · cases h
      exact Or.inl rfl
    · split_ifs at h
      · cases h
        exact Or.inl rfl
      · cases h
        exact Or.inr ⟨_, rfl⟩
  · cases h
    exact Or.inl rfl

theorem proper_encodeAll (hbit : (reserved &&& 4 == 0) = false) {es : List (Deflate F)}
    {header : Header} {data : Storage} {enc : Encoded (List (Deflate F))}
    (h : Extension.encodeAll es header data = some enc) (hctl : header.opcode.isControl = false)
    (hp : Outgoing.Proper reserved ⟨header, data.asRef⟩) :
    Outgoing.Proper reserved ⟨enc.header, enc.data.asRef⟩ := by
  induction es generalizing header data enc with
  | nil =>
    cases h
    exact hp
  | cons e es ih =>
    rw [Extension.encodeAll] at h
    rcases he : Extension.encode e header data with _ | d <;> rw [he] at h
    · cases h
    · have hd : d.header.opcode.isControl = false ∧
          Outgoing.Proper reserved ⟨d.header, d.data.asRef⟩ := by
        have hnot : ∀ {p : Prop}, header.opcode.isControl = true → p := fun hc => by
          rw [hctl] at hc
          cases hc
        obtain ⟨h₁, h₂, h₃, h₄, h₅, h₆, h₇, h₈⟩ := hp
        rcases Deflate.header_encode he with hh | ⟨n, hh⟩
        · rw [hh]
          exact ⟨hctl, h₁, h₂, hnot, h₄, h₅, h₆, h₇, h₈⟩
        · rw [hh]
          exact ⟨hctl, h₁, h₂, hnot, fun _ => hbit, h₅, h₆, h₇, h₈⟩
      dsimp only at h
      rcases hres : d.result with x | u <;> rw [hres] at h
      · cases h
        exact hd.2
      · obtain ⟨enc', henc', rfl⟩ := Option.map_eq_some_iff.mp h
        have hp' := ih henc' hd.1 hd.2
        exact hp'

theorem OpsWrite.proper {ext : Bool} (hbit : ext = true → (reserved &&& 4 == 0) = false)
    {ops : List Op} {results : List (Except Error Unit)} {fs : List Outgoing}
    (h : OpsWrite (Deflate F) ext ops results fs) : ∀ f ∈ fs, f.Proper reserved := by
  induction h with
  | nil => exact fun f hf => nomatch hf
  | @cons op ops result results fs gs hop _ ih =>
    intro f hf
    rcases List.mem_append.mp hf with hf | hf
    · cases hop with
      | plain => exact Op.proper_frame reserved (Option.mem_toList.mp hf)
      | @encoded f₀ data es enc hx hframe hctl hd henc hok =>
        obtain rfl := List.mem_singleton.mp hf
        have hp := Op.proper_frame reserved hframe
        have hp' : Outgoing.Proper reserved ⟨f₀.header, data.asRef⟩ := by
          rw [hd]
          exact hp
        exact proper_encodeAll (hbit hx) henc hctl hp'
      | refused => cases hf
    · exact ih f hf

end Deflate

/-! ## The frames of the receiver -/

namespace Receiver

theorem accepts_receiveHeaderLoop (fuel : ℕ) (self : Receiver) {r' : Receiver} {header : Header}
    (h : receiveHeaderLoop fuel self = some (.ok header, r')) : self.codec.Accepts header := by
  induction fuel generalizing self with
  | zero => cases h
  | succ fuel ih =>
    rw [receiveHeaderLoop] at h
    rcases hd : self.codec.decodeHeader.run self.buffer with e | ⟨header', off⟩ | n <;>
      rw [hd] at h
    · cases h
    · cases h
      exact (Codec.accepts_of_decodeHeader hd).1
    · dsimp only at h
      rcases hr : Soketto.read self.reader self.buffer n with ⟨e | u, reader, buffer⟩ <;>
        rw [hr] at h
      · cases h
      · exact ih { self with reader, buffer } h

theorem header_closeAnswer {data : List UInt8} {answer : Header} {reason : Option CloseReason}
    (h : closeAnswer data = .ok (answer, reason)) : answer = Header.new .close := by
  unfold closeAnswer at h
  dsimp only at h
  split at h
  · split at h
    · cases h
    · split_ifs at h <;> cases h <;> rfl
  · cases h
    rfl

theorem length_answerData (reason : Option CloseReason) :
    (answerData reason).length ≤ maxCtrlBodySize := by
  cases reason with
  | none => decide
  | some r =>
    rw [answerData, length_beBytes]
    decide

theorem proper_answerTo (reserved : UInt8) {header : Header} {payload : List UInt8} {f : Outgoing}
    (hlen : payload.length ≤ maxCtrlBodySize) (h : answerTo header payload = some f) :
    f.Proper reserved := by
  unfold answerTo at h
  split at h
  · cases h
    exact Outgoing.proper_new rfl fun _ => hlen
  · split at h
    · cases h
    · next answer reason hca =>
      cases h
      rw [header_closeAnswer hca]
      exact Outgoing.proper_new rfl fun _ => length_answerData reason
  · cases h

theorem proper_answer (reserved : UInt8) {self : Receiver} {f : Outgoing}
    (h : self.answer = some f) : f.Proper reserved := by
  unfold answer at h
  split_ifs at h
  split at h
  · next header r₁ hh =>
    split_ifs at h with hctl
    have hacc := accepts_receiveHeaderLoop _ _ hh
    unfold controlAnswer at h
    split at h
    · cases h
    · refine proper_answerTo reserved ?_ h
      rw [length_applyMask]
      exact (List.length_take_le _ _).trans (hacc.control_len hctl)
  · cases h

variable {E : Type} [Extension E] {all : Bool} {fs : List Outgoing} {ms : List (List UInt8)}

theorem Answers.proper (reserved : UInt8) {r : Receiver} {l : Locals}
    (h : Answers E all r l ms fs) : ∀ f ∈ fs, f.Proper reserved := by
  have hans : ∀ {r : Receiver} {f}, f ∈ r.answer.toList → Outgoing.Proper reserved f :=
    fun hf => proper_answer reserved (Option.mem_toList.mp hf)
  induction h with
  | stop => exact fun f hf => nomatch hf
  | again _ _ ih =>
    intro f hf
    rcases List.mem_append.mp hf with hf | hf
    · exact hans hf
    · exact ih f hf
  | last => exact fun f hf => hans hf
  | next _ _ ih =>
    intro f hf
    rcases List.mem_append.mp hf with hf | hf
    · exact hans hf
    · exact ih f hf

theorem AnswersAll.proper (reserved : UInt8) {r : Receiver} (h : AnswersAll E all r ms fs) :
    ∀ f ∈ fs, f.Proper reserved := by
  cases ms with
  | nil =>
    obtain rfl : fs = [] := h
    exact fun f hf => nomatch hf
  | cons m ms => exact Answers.proper reserved h

end Receiver

/-! ## The race -/

/-- The builders that a program can make. -/
inductive Builder.Made {E : Type} [Extension E] : Builder E → Prop
  | new (socket : Chunked.Source UInt8) (mode : Mode) : Made (Builder.new socket mode)
  | setBuffer {b : Builder E} (h : Made b) (buffer : List UInt8) : Made (b.setBuffer buffer)
  | addExtensions {b : Builder E} (h : Made b) (es : List E) : Made (b.addExtensions es)
  | setMaxMessageSize {b : Builder E} (h : Made b) (max : UInt64) : Made (b.setMaxMessageSize max)
  | setMaxFrameSize {b : Builder E} (h : Made b) (max : UInt64) : Made (b.setMaxFrameSize max)

/-- With an extension, RSV1 is in use. -/
def Builder.UsesRsv1 {E : Type} (b : Builder E) : Prop :=
  b.extensions ≠ [] → (b.codec.reservedBits &&& 4 == 0) = false

theorem or_and_self (x y : UInt8) : (x ||| y) &&& y = y := by
  refine UInt8.toBitVec_inj.mp (BitVec.eq_of_getElem_eq fun i hi => ?_)
  simp only [UInt8.toBitVec_and, UInt8.toBitVec_or, BitVec.getElem_and, BitVec.getElem_or]
  cases x.toBitVec[i] <;> cases y.toBitVec[i] <;> rfl

theorem Builder.usesRsv1_addExtensions {F : Flate} {b : Builder (Deflate F)} (h : b.UsesRsv1)
    (es : List (Deflate F)) : (b.addExtensions es).UsesRsv1 := by
  induction es generalizing b with
  | nil => exact h
  | cons e es ih =>
    refine ih ?_
    unfold addExtension
    split_ifs
    · intro _
      have hbits : true.toUInt8 <<< 2 ||| false.toUInt8 <<< 1 ||| false.toUInt8 = 4 := by decide
      change ((b.codec.reservedBits ||| (true.toUInt8 <<< 2 ||| false.toUInt8 <<< 1 |||
        false.toUInt8)) &&& 4 == 0) = false
      rw [hbits, or_and_self]
      rfl
    · exact h

theorem Builder.Made.usesRsv1 {F : Flate} {b : Builder (Deflate F)} (h : b.Made) : b.UsesRsv1 := by
  induction h with
  | new => exact fun h => absurd rfl h
  | setBuffer _ _ ih => exact ih
  | addExtensions _ es ih => exact usesRsv1_addExtensions ih es
  | setMaxMessageSize _ _ ih => exact ih
  | setMaxFrameSize _ _ ih => exact ih

/-- The halves of a connection. -/
inductive Half where
  | sender
  | receiver
  deriving DecidableEq, Repr

/-- What the halves return. -/
def Half.Output : Half → Type
  | sender => Option (List (Except Error Unit) × Sender)
  | receiver => Option (List (Received Incoming))

/-- The sender performs operations while the receiver is called with vectors. -/
def halves {E : Type} [Extension E] (s : Sender) (r : Receiver) (ops : List Op)
    (ms : List (List UInt8)) : (i : Half) → Fiber (List E) i.Output
  | .sender => s.performAll ops
  | .receiver => r.receiveAll ms

/-- A moment of the race of a sender and a receiver with the same mode, as it should be. -/
structure WholeFrames {F : Flate} (s : Sender) (r : Receiver) (ops : List Op)
    (ms : List (List UInt8)) (st : Race Half Half.Output (List (Deflate F))) : Prop where
  /-- The wire holds the sections in the order of their locks. -/
  wire : st.wire = st.done.flatMap Prod.snd ++ (st.current.map Prod.snd).getD []
  /-- A finished section is a complete frame, or nothing was written in it. -/
  complete : ∀ x ∈ st.done, x.2 = [] ∨ CompleteFrame s.mode s.codec.reservedBits x.2
  /-- The section of the holder of the lock is to become one. -/
  current : ∀ x, st.current = some x →
    ∃ rest, x.2 ++ rest = [] ∨ CompleteFrame s.mode s.codec.reservedBits (x.2 ++ rest)
  /-- The sections of the sender are the frames of its operations. -/
  sender : ∃ more ops₁ results fs, ops₁ <+: ops ∧
    OpsWrite (Deflate F) s.hasExtensions ops₁ results fs ∧
    WriteFrames s.mode (st.sections .sender ++ more) fs ∧
    ∀ x, st.fibers .sender = .ret (some x) → more = [] ∧ ops₁ = ops ∧ x.1 = results
  /-- The sections of the receiver are its answers. -/
  receiver : ∃ more all fs, r.AnswersAll (Deflate F) all ms fs ∧
    WriteFrames s.mode (st.sections .receiver ++ more) fs ∧
    ∀ x, st.fibers .receiver = .ret (some x) → more = [] ∧ all = true

section

variable {F : Flate} {s : Sender} {r : Receiver} {ops : List Op} {ms : List (List UInt8)}
  {st : Race Half Half.Output (List (Deflate F))}

theorem disciplined_halves {E : Type} [Extension E] (s : Sender) (r : Receiver) (ops : List Op)
    (ms : List (List UInt8)) (i : Half) : (halves (E := E) s r ops ms i).Disciplined := by
  cases i with
  | sender => exact disciplined_performAll s ops
  | receiver => exact r.disciplined_receiveAll ms

theorem complete_of_writeFrames {mode : Mode} {reserved : UInt8} {secs : List (List UInt8)}
    {fs : List Outgoing} (hw : WriteFrames mode secs fs) (hp : ∀ f ∈ fs, f.Proper reserved) :
    ∀ bs ∈ secs, bs = [] ∨ CompleteFrame mode reserved bs := by
  intro bs hbs
  rcases hw.exists_frame hbs with hnil | ⟨f, hf, mask, rfl⟩
  · exact Or.inl hnil
  · exact Or.inr ((hp f hf).complete mode mask)

variable (hinv : Race.Inv (halves s r ops ms) st)

include hinv

theorem sender_sections :
    ∃ more ops₁ results fs, ops₁ <+: ops ∧
      OpsWrite (Deflate F) s.hasExtensions ops₁ results fs ∧
      WriteFrames s.mode (st.sections .sender ++ more) fs ∧
      (∀ x, st.fibers .sender = .ret (some x) → more = [] ∧ ops₁ = ops ∧ x.1 = results) ∧
      ∀ c, st.current = some (.sender, c) → ∃ rest more', more = (c ++ rest) :: more' := by
  obtain ⟨more, out, htr, hcur, hret⟩ := hinv.exists_traces .sender
  obtain ⟨-, ops₁, results, fs, hpre, hops, hw, hout⟩ := traces_performAll htr
  refine ⟨more, ops₁, results, fs, hpre, hops, hw, fun x hx => ?_, hcur⟩
  obtain ⟨hmore, rfl⟩ := hret _ hx
  exact ⟨hmore, hout x rfl⟩

theorem receiver_sections (hm : r.mode = s.mode) :
    ∃ more all fs, r.AnswersAll (Deflate F) all ms fs ∧
      WriteFrames s.mode (st.sections .receiver ++ more) fs ∧
      (∀ x, st.fibers .receiver = .ret (some x) → more = [] ∧ all = true) ∧
      ∀ c, st.current = some (.receiver, c) → ∃ rest more', more = (c ++ rest) :: more' := by
  obtain ⟨more, out, htr, hcur, hret⟩ := hinv.exists_traces .receiver
  obtain ⟨-, fs, hw, ha⟩ := Receiver.traces_receiveAll htr
  rw [hm] at hw
  refine ⟨more, _, fs, ha, hw, fun x hx => ?_, hcur⟩
  obtain ⟨hmore, rfl⟩ := hret _ hx
  exact ⟨hmore, rfl⟩

/-- **Every moment of the race of the halves.** -/
theorem wholeFrames_of_inv (hm : r.mode = s.mode)
    (hbit : s.hasExtensions = true → (s.codec.reservedBits &&& 4 == 0) = false) :
    WholeFrames s r ops ms st := by
  obtain ⟨more, ops₁, results, fs, hpre, hops, hw, hret, hcur⟩ := sender_sections hinv
  obtain ⟨more', all, fs', ha, hw', hret', hcur'⟩ := receiver_sections hinv hm
  have hsend := complete_of_writeFrames hw (hops.proper hbit)
  have hrecv := complete_of_writeFrames hw' (ha.proper s.codec.reservedBits)
  refine ⟨hinv.wire, fun x hx => ?_, fun x hx => ?_,
    ⟨more, ops₁, results, fs, hpre, hops, hw, hret⟩, more', all, fs', ha, hw', hret'⟩
  · have hmem := Race.mem_sections hx
    obtain ⟨i, bs⟩ := x
    cases i with
    | sender => exact hsend bs (List.mem_append_left _ hmem)
    | receiver => exact hrecv bs (List.mem_append_left _ hmem)
  · obtain ⟨i, bs⟩ := x
    cases i with
    | sender =>
      obtain ⟨rest, more₁, rfl⟩ := hcur bs hx
      exact ⟨rest, hsend _ (List.mem_append_right _ List.mem_cons_self)⟩
    | receiver =>
      obtain ⟨rest, more₁, rfl⟩ := hcur' bs hx
      exact ⟨rest, hrecv _ (List.mem_append_right _ List.mem_cons_self)⟩

end

/-- **Frames are written as a whole.** The halves of any connection that a program can build race
for the writer, with any mask buffer, any operations and any calls of `receive`. At every moment
that any order of their steps leads to, the wire holds complete frames in the order of the locks. -/
theorem frame_atomicity {F : Flate} {b : Builder (Deflate F)} (hb : b.Made)
    (maskBuffer : List UInt8) (ops : List Op) (ms : List (List UInt8))
    {st : Race Half Half.Output (List (Deflate F))}
    (h : Relation.ReflTransGen Race.Step
      (Race.init (halves { b.finish.1 with maskBuffer } b.finish.2.1 ops ms) b.finish.2.2) st) :
    WholeFrames { b.finish.1 with maskBuffer } b.finish.2.1 ops ms st := by
  have hinv := Race.reachable (disciplined_halves _ _ ops ms) h
  refine wholeFrames_of_inv hinv rfl fun hx => hb.usesRsv1 fun hnil => ?_
  simp [Builder.finish, hnil] at hx

/-- A server with deflate that is sent an empty ping. -/
def pingedServer : Builder (Deflate .stored) :=
  (Builder.new [.data [0x89, 0x80, 0, 0, 0, 0]] .server).addExtensions [.stored]

/-- The sender has written half of the header of a ping when the receiver wants to answer one; the
answer is written after the ping. -/
theorem frame_atomicity_pings :
    ∃ st : Race Half Half.Output (List (Deflate .stored)),
      st.wire = [0x89, 1, 7, 0x8A] ∧
      WholeFrames { pingedServer.finish.1 with maskBuffer := [5] } pingedServer.finish.2.1
        [.sendPing ⟨[7], by decide⟩] [[]] st := by
  have hmade : pingedServer.Made := .addExtensions (.new _ _) _
  refine ⟨_, ?_, frame_atomicity hmade [5] [.sendPing ⟨[7], by decide⟩] [[]]
    ((((((((Relation.ReflTransGen.refl.tail
      (.lock (i := .sender) rfl rfl)).tail
      (.write (i := .sender) [0x89] [1] rfl)).tail
      (.write (i := .sender) [1] [] rfl)).tail
      (.written (i := .sender) rfl)).tail
      (.write (i := .sender) [7] [] rfl)).tail
      (.written (i := .sender) rfl)).tail
      (.unlock (i := .sender) rfl rfl)).tail
      (.lock (i := .receiver) rfl rfl) |>.tail
      (.write (i := .receiver) [0x8A] [0] rfl))⟩
  rfl

end Soketto
