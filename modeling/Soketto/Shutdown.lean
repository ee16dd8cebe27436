import Soketto.Atomicity
import Soketto.Lib.Shut

/-!
# Nothing is sent after a close frame

The halves of a connection race for a writer that rejects writes once it is closed, and whose
flushing and closing may fail. Writing a close frame, flushing and closing are three sections.

* `frameOpCode`: the opcode of a frame on the wire; `opCodes` those of all of them.
* `ordered_performAll`, `ordered_receiveAll`: a half that has written a close frame flushes and
  closes the writer, unless it is told that this failed.
* **`no_data_after_close`**: in a run in which no other half gets hold of the writer before it is
  closed, and flushing and closing it succeed, no data and no close frame follows a close frame.
-/

set_option autoImplicit false

namespace Soketto

open BigEndian

/-- The opcode of the frame that begins with these bytes. -/
def frameOpCode (bs : List UInt8) : Option OpCode :=
  bs.head?.bind fun first => OpCode.tryFrom (first &&& 0xF)

/-- The bytes begin a close frame. -/
def isCloseFrame (bs : List UInt8) : Bool := frameOpCode bs == some .close

theorem frameOpCode_bytes (mode : Mode) (mask : UInt32) (f : Outgoing) :
    frameOpCode (f.bytes mode mask) = some f.header.opcode := by
  have hfirst : frameOpCode (f.bytes mode mask) =
      OpCode.tryFrom (Codec.firstByte (f.sealed mode mask) &&& 0xF) := rfl
  rw [hfirst, Codec.firstByte, (Codec.flagBits_decode _ _ _ _ _).2.2.2.2, Outgoing.opcode_sealed]

theorem isCloseFrame_bytes {mode : Mode} {mask : UInt32} {f : Outgoing}
    (h : f.header.opcode ≠ .close) : isCloseFrame (f.bytes mode mask) = false := by
  rw [isCloseFrame, frameOpCode_bytes]
  simpa using h

/-- The bytes are those of a frame. -/
def IsFrame (mode : Mode) (bs : List UInt8) : Prop :=
  ∃ (f : Outgoing) (mask : UInt32), bs = f.bytes mode mask

/-! ## Halves that close the writer -/

section

variable {σ : Type} {mode : Mode} {codec : Codec} {header : Header} {data : Storage}
  {mb : List UInt8}

/-- The fiber is orderly, with frames as sections. -/
def Closes {α : Type} (mode : Mode) (t : Fiber σ α) : Prop := t.Ordered (IsFrame mode) isCloseFrame

theorem orderly_sealHeader {ph : Fiber.Phase} :
    (sealHeader mode header data : Fiber σ Header).Orderly (IsFrame mode) isCloseFrame ph
      fun h ph' => ph' = ph ∧ ∃ mask, h = Outgoing.sealed mode mask ⟨header, data.asRef⟩ := by
  cases mode with
  | client => exact fun mask => ⟨rfl, mask, rfl⟩
  | server => exact ⟨rfl, 0, rfl⟩

/-- The section of a `write` is a frame, and it is the last one when it is a close frame. -/
theorem orderly_write :
    (write mode codec header data mb : Fiber σ Written).Orderly (IsFrame mode) isCloseFrame .idle
      fun out ph => out.result = .ok () ∧
        ph = if header.opcode = .close then .ending false else .idle := by
  unfold write
  refine Fiber.orderly_bind (orderly_sealHeader.mono ?_)
  rintro h ph ⟨rfl, mask, rfl⟩
  set h := Outgoing.sealed mode mask ⟨header, data.asRef⟩ with hh
  have hbytes : [] ++ (codec.encodeHeader h).1 ++ (maskPayload h data mb).1 =
      Outgoing.bytes mode mask ⟨header, data.asRef⟩ := by
    rw [List.nil_append, Outgoing.bytes, maskPayload_fst, Codec.encodeHeader_fst]
  have hphase : (if isCloseFrame ([] ++ (codec.encodeHeader h).1 ++ (maskPayload h data mb).1) = true
      then Fiber.Phase.ending false else .idle) =
        if header.opcode = .close then .ending false else .idle := by
    rw [hbytes]
    by_cases hc : header.opcode = .close
    · rw [if_pos hc, isCloseFrame, frameOpCode_bytes, hc]
      rfl
    · rw [if_neg hc, isCloseFrame_bytes hc]
      rfl
  exact ⟨fun _ => ⟨⟨header, data.asRef⟩, mask, hbytes⟩, rfl, hphase⟩

theorem closes_write (hoc : header.opcode ≠ .close) :
    Closes mode (write mode codec header data mb : Fiber σ Written) :=
  orderly_write.mono fun _ _ h => by rw [h.2, if_neg hoc]

theorem closes_flushWriter : Closes mode (flushWriter : Fiber σ (Except Error Unit)) :=
  fun _ => ⟨fun h => absurd rfl h, rfl⟩

theorem orderly_flushWriter :
    (flushWriter : Fiber σ (Except Error Unit)).Orderly (IsFrame mode) isCloseFrame (.ending false)
      fun out ph => out = .ok () ∧ ph = .ending false := ⟨rfl, rfl⟩

theorem orderly_closeWriter {Q : Except Error Unit → Fiber.Phase → Prop} :
    (closeWriter : Fiber σ (Except Error Unit)).Orderly (IsFrame mode) isCloseFrame (.ending false)
      Q := trivial

end

/-- No extension turns a frame into another kind of frame. -/
def KeepsOpCode (E : Type) [Extension E] : Prop :=
  ∀ (e : E) (header : Header) (data : Storage) (enc : Encoded E),
    Extension.encode e header data = some enc → enc.header.opcode = header.opcode

theorem keepsOpCode_deflate (F : Flate) : KeepsOpCode (Deflate F) := by
  intro e header data enc h
  rcases Deflate.header_encode h with hh | ⟨n, hh⟩ <;> rw [hh]

section Sender

variable {E : Type} {s : Sender} {header : Header} {data : Storage}

theorem orderly_sender_write :
    (s.write header data : Fiber (List E) Sent).Orderly (IsFrame s.mode) isCloseFrame .idle
      fun out ph => out.result = .ok () ∧ out.sender.mode = s.mode ∧
        ph = if header.opcode = .close then .ending false else .idle := by
  unfold Sender.write
  exact Fiber.orderly_bind (orderly_write.mono fun out ph h => ⟨h.1, rfl, h.2⟩)

/-- The mode is that of the sender still. -/
def KeepsMode (s : Sender) (t : Fiber (List E) (Option Sent)) : Prop :=
  t.Orderly (IsFrame s.mode) isCloseFrame .idle fun out ph =>
    ph = .idle ∧ ∀ sent ∈ out, sent.sender.mode = s.mode

theorem keepsMode_write (hoc : header.opcode ≠ .close) :
    KeepsMode (E := E) s (do return some (← s.write header data)) := by
  refine Fiber.orderly_bind (orderly_sender_write.mono ?_)
  rintro out ph ⟨-, hm, rfl⟩
  refine ⟨if_neg hoc, fun sent hs => ?_⟩
  cases hs
  exact hm

theorem keepsMode_close (s : Sender) : KeepsMode (E := E) s (do return some (← s.close)) := by
  refine Fiber.orderly_bind (Fiber.orderly_bind (orderly_sender_write.mono ?_))
  rintro ⟨result, s'⟩ ph ⟨rfl, hm, rfl⟩
  refine Fiber.orderly_bind (orderly_flushWriter.mono ?_)
  rintro result ph ⟨rfl, rfl⟩
  exact Fiber.orderly_bind orderly_closeWriter

variable [Extension E]

theorem opcode_encodeAll (hE : KeepsOpCode E) {es : List E} {enc : Encoded (List E)}
    (h : Extension.encodeAll es header data = some enc) : enc.header.opcode = header.opcode := by
  induction es generalizing header data enc with
  | nil =>
    cases h
    rfl
  | cons e es ih =>
    rw [Extension.encodeAll] at h
    rcases he : Extension.encode e header data with _ | d <;> rw [he] at h
    · cases h
    · have hd := hE e header data d he
      dsimp only at h
      rcases hres : d.result with x | u <;> rw [hres] at h
      · cases h
        exact hd
      · obtain ⟨enc', henc', rfl⟩ := Option.map_eq_some_iff.mp h
        exact (ih henc').trans hd

theorem keepsMode_sendFrame (hE : KeepsOpCode E) (s : Sender) (hoc : header.opcode ≠ .close) :
    KeepsMode (E := E) s (s.sendFrame header data) := by
  unfold Sender.sendFrame
  split_ifs
  · exact keepsMode_write hoc
  · refine Fiber.orderly_bind fun es => ?_
    rcases henc : Extension.encodeAll es header data with _ | enc <;>
      simp only [Fiber.Orderly, henc]
    · refine ⟨rfl, fun sent hs => ?_⟩
      cases hs
    · obtain ⟨result, es', header', data'⟩ := enc
      rcases result with e | u
      · refine ⟨rfl, fun sent hs => ?_⟩
        cases hs
        rfl
      · have hoc' : header'.opcode ≠ .close := by
          rw [show header'.opcode = header.opcode from opcode_encodeAll hE henc]
          exact hoc
        exact keepsMode_write hoc'

theorem keepsMode_perform (hE : KeepsOpCode E) (s : Sender) (op : Op) :
    KeepsMode (E := E) s (s.perform op) := by
  cases op with
  | flush =>
    refine Fiber.orderly_bind (closes_flushWriter.mono ?_)
    rintro result ph rfl
    refine ⟨rfl, fun sent hs => ?_⟩
    cases hs
    rfl
  | close => exact keepsMode_close s
  | sendPing data => exact keepsMode_write nofun
  | sendPong data => exact keepsMode_write nofun
  | _ => exact keepsMode_sendFrame hE s nofun

/-- **A sender that writes a close frame closes the writer.** -/
theorem closes_performAll (hE : KeepsOpCode E) (s : Sender) (ops : List Op) :
    Closes s.mode (s.performAll ops : Fiber (List E) _) := by
  induction ops generalizing s with
  | nil => rfl
  | cons op ops ih =>
    refine Fiber.orderly_bind ((keepsMode_perform hE s op).mono ?_)
    rintro out ph ⟨rfl, hm⟩
    rcases out with _ | ⟨result, s'⟩
    · rfl
    · have hrest := ih s'
      rw [show s'.mode = s.mode from hm _ rfl] at hrest
      refine Fiber.Ordered.bind hrest fun out => ?_
      rcases out with _ | ⟨results, s''⟩ <;> rfl

end Sender

namespace Receiver

variable {E : Type} {self : Receiver} {header : Header} {l : Locals}

theorem closes_flush (mode : Mode) (self : Receiver) :
    Closes mode (self.flush : Fiber (List E) (Except Error Unit)) := by
  unfold flush
  split_ifs
  · rfl
  · exact closes_flushWriter

/-- What the receiver does leaves it with its mode. -/
def KeepsMode {α : Type} (mode : Mode) (t : Fiber (List E) α) (receiver : α → Option Receiver) :
    Prop :=
  t.Orderly (IsFrame mode) isCloseFrame .idle fun out ph =>
    ph = .idle ∧ ∀ r ∈ receiver out, r.mode = mode

theorem keepsMode_onControl (self : Receiver) (header : Header) (hopen : self.isClosed = false) :
    KeepsMode (E := E) self.mode (self.onControl header) fun out => some out.2 := by
  have hsame : ∀ {r r' : Receiver}, r.mode = self.mode → r' ∈ some r → r'.mode = self.mode :=
    fun hr hr' => Option.mem_some_iff.mp hr' ▸ hr
  unfold onControl
  split
  · refine Fiber.orderly_bind ((closes_write (by decide)).mono ?_)
    rintro w ph rfl
    dsimp only
    cases w.result with
    | error e => exact ⟨rfl, fun r => hsame rfl⟩
    | ok u =>
      refine Fiber.orderly_bind ((closes_flush self.mode _).mono ?_)
      rintro out ph rfl
      cases out <;> exact ⟨rfl, fun r => hsame rfl⟩
  · exact ⟨rfl, fun r => hsame rfl⟩
  · split
    · exact ⟨rfl, fun r => hsame rfl⟩
    · next answer reason hca =>
      rw [header_closeAnswer hca]
      refine Fiber.orderly_bind (orderly_write.mono ?_)
      rintro w ph ⟨-, rfl⟩
      dsimp only
      unfold flush
      rw [if_neg (by simp [hopen])]
      refine Fiber.orderly_bind (orderly_flushWriter.mono ?_)
      rintro out ph ⟨rfl, rfl⟩
      exact Fiber.orderly_bind orderly_closeWriter
  · exact ⟨rfl, fun r => hsame rfl⟩

theorem keepsMode_controlFrame (hopen : self.isClosed = false) :
    KeepsMode (E := E) self.mode (self.controlFrame header l) fun out => some out.receiver := by
  have hsame : ∀ {r r' : Receiver}, r.mode = self.mode → r' ∈ some r → r'.mode = self.mode :=
    fun hr hr' => Option.mem_some_iff.mp hr' ▸ hr
  unfold controlFrame
  rcases hr : self.readBuffer header with ⟨e | u, r₁⟩
  · exact ⟨rfl, fun r => hsame (reads_readBuffer hr).1.mode⟩
  · have hm := (reads_readBuffer hr).1.mode
    have hc := (reads_readBuffer hr).1.isClosed
    dsimp only
    split_ifs
    · exact ⟨rfl, fun r => hsame hm⟩
    · rw [← hm]
      have hctl := keepsMode_onControl (E := E) { r₁ with
        buffer := r₁.buffer.drop header.payloadLen
        ctrlBuffer := applyMask header (r₁.buffer.take header.payloadLen) } header (hc.trans hopen)
      refine Fiber.orderly_bind (hctl.mono ?_)
      rintro ⟨res, r₂⟩ ph ⟨rfl, hm₂⟩
      rcases res with e | _ | reason <;> exact ⟨rfl, hm₂⟩

variable [Extension E]

theorem keepsMode_receiveRound (self : Receiver) (l : Locals) :
    KeepsMode (E := E) self.mode (self.receiveRound l) (Option.map Round.receiver) := by
  have hsome : ∀ {round : Round} {r : Receiver}, round.receiver.mode = self.mode →
      r ∈ Option.map Round.receiver (some round) → r.mode = self.mode :=
    fun hr hr' => Option.mem_some_iff.mp hr' ▸ hr
  unfold receiveRound
  split_ifs with hc
  · exact ⟨rfl, fun r => hsome rfl⟩
  · have hopen : self.isClosed = false := by simpa using hc
    split
    · exact ⟨rfl, fun r hr => (nomatch hr)⟩
    · next e r₁ hh => exact ⟨rfl, fun r => hsome (reads_receiveHeaderLoop _ _ hh).1.mode⟩
    · next header r₁ hh =>
      have hm : r₁.mode = self.mode := (reads_receiveHeaderLoop _ _ hh).1.mode
      have hc : r₁.isClosed = self.isClosed := (reads_receiveHeaderLoop _ _ hh).1.isClosed
      rw [← hm] at hsome ⊢
      split_ifs
      · refine Fiber.orderly_bind ((keepsMode_controlFrame (hc.trans hopen)).mono ?_)
        rintro round ph ⟨rfl, hround⟩
        exact ⟨rfl, hround⟩
      · refine Fiber.orderly_bind (((quiet_dataFrame r₁ header l).orderly .idle).mono ?_)
        rintro round ph ⟨rfl, hround⟩
        exact ⟨rfl, fun r => hsome hround⟩

theorem keepsMode_receiveLoop (fuel : ℕ) (self : Receiver) (l : Locals) :
    KeepsMode (E := E) self.mode (receiveLoop fuel self l) (Option.map Received.receiver) := by
  induction fuel generalizing self l with
  | zero => exact ⟨rfl, fun r hr => (nomatch hr)⟩
  | succ fuel ih =>
    refine Fiber.orderly_bind ((keepsMode_receiveRound self l).mono ?_)
    rintro out ph ⟨rfl, hm⟩
    rcases out with _ | ⟨r', l'⟩ | ⟨result, r', message⟩
    · exact ⟨rfl, fun r hr => (nomatch hr)⟩
    · rw [← hm r' rfl]
      exact ih r' l'
    · exact ⟨rfl, hm⟩

/-- **A receiver that answers a close frame closes the writer.** -/
theorem closes_receiveAll (self : Receiver) (ms : List (List UInt8)) :
    Closes self.mode (self.receiveAll ms : Fiber (List E) _) := by
  induction ms generalizing self with
  | nil => rfl
  | cons m ms ih =>
    refine Fiber.orderly_bind ((keepsMode_receiveLoop _ self (.start m)).mono ?_)
    rintro out ph ⟨rfl, hm⟩
    rcases out with _ | out
    · rfl
    · have hrest := ih out.receiver
      rw [hm out.receiver rfl] at hrest
      refine Fiber.Ordered.bind hrest fun outs => ?_
      rcases outs with _ | outs <;> rfl

end Receiver

/-! ## The frames on the wire -/

section

variable {σ : Type}

/-- What was written each time the writer was held, in order. -/
def written (st : Sink Half Half.Output σ) : List (List UInt8) :=
  st.done.map Prod.snd ++ (st.current.map Prod.snd).toList

/-- The opcodes of the frames on the wire; the last frame may be incomplete. -/
def opCodes (st : Sink Half Half.Output σ) : List OpCode := (written st).filterMap frameOpCode

/-- There is at most one close frame, and no text or binary frame after it. -/
def NoDataAfterClose (ocs : List OpCode) : Prop :=
  ocs.Pairwise fun a b => a = .close → b ≠ .close ∧ b ≠ .text ∧ b ≠ .binary

instance (ocs : List OpCode) : Decidable (NoDataAfterClose ocs) :=
  inferInstanceAs (Decidable (ocs.Pairwise _))

variable {P : List UInt8 → Prop} {st : Sink Half Half.Output σ}

theorem wire_eq_written (h : Sink.Inv P isCloseFrame st) : st.wire = (written st).flatten := by
  rw [h.wire, written, List.flatten_append, List.flatMap_def]
  rcases st.current with _ | ⟨i, c⟩
  · rfl
  · simp

theorem pairwise_written (h : Sink.Inv P isCloseFrame st) :
    (written st).Pairwise fun x y => isCloseFrame x = true → y = [] := by
  refine List.pairwise_append.mpr ⟨List.pairwise_map.mpr h.pairwise, ?_, fun x hx y hy hc => ?_⟩
  · rcases st.current with _ | ⟨i, c⟩
    · exact .nil
    · exact List.pairwise_singleton _ _
  · obtain ⟨z, hz, rfl⟩ := List.mem_map.mp hx
    obtain ⟨w, hw, rfl⟩ := Option.mem_map.mp (Option.mem_toList.mp hy)
    rcases hcl : st.closing isCloseFrame with _ | i
    · rw [Sink.not_last_of_closing hcl z hz] at hc
      cases hc
    · exact h.quiet i hcl w hw

theorem noDataAfterClose_of_inv (h : Sink.Inv P isCloseFrame st) :
    NoDataAfterClose (opCodes st) := by
  refine List.pairwise_filterMap.mpr ((pairwise_written h).imp fun hxy a ha b hb hclose => ?_)
  rw [hclose] at ha
  rw [hxy (by rw [isCloseFrame, ha]; rfl)] at hb
  cases hb

end

/-- The connection before any of these operations and calls. -/
def Builder.start {E : Type} [Extension E] (b : Builder E) (maskBuffer : List UInt8)
    (ops : List Op) (ms : List (List UInt8)) : Sink Half Half.Output (List E) :=
  .init (halves { b.finish.1 with maskBuffer } b.finish.2.1 ops ms) b.finish.2.2

theorem closes_halves {F : Flate} {mode : Mode} {s : Sender} {r : Receiver} (hs : s.mode = mode)
    (hr : r.mode = mode) (ops : List Op) (ms : List (List UInt8)) (i : Half) :
    Closes mode (halves (E := Deflate F) s r ops ms i) := by
  cases i with
  | sender =>
    rw [← hs]
    exact closes_performAll (keepsOpCode_deflate F) s ops
  | receiver =>
    rw [← hr]
    exact r.closes_receiveAll ms

/-- **Nothing is sent after a close frame** in a run of the halves of a connection, with any
operations and any calls of `receive`, in which the half that has written a close frame is alone
with the writer until it is closed, and is told that flushing and closing it succeeded. -/
theorem no_data_after_close {F : Flate} (b : Builder (Deflate F)) (maskBuffer : List UInt8)
    (ops : List Op) (ms : List (List UInt8)) {st : Sink Half Half.Output (List (Deflate F))}
    (h : Relation.ReflTransGen (Sink.CalmStep isCloseFrame) (b.start maskBuffer ops ms) st) :
    st.wire = (written st).flatten ∧ (∀ x ∈ st.done, x.2 ≠ [] → IsFrame b.mode x.2) ∧
      NoDataAfterClose (opCodes st) := by
  have hinv := Sink.calm_reachable
    (closes_halves (s := { b.finish.1 with maskBuffer }) (r := b.finish.2.1) rfl rfl ops ms) h
  exact ⟨wire_eq_written hinv, hinv.sections, noDataAfterClose_of_inv hinv⟩

/-- A server that is sent nothing. -/
def silentServer : Builder (Deflate .stored) := Builder.new [] .server

/-- The sender closes the connection; what it sends then is rejected. -/
theorem no_data_after_close_rejected :
    ∃ st : Sink Half Half.Output (List (Deflate .stored)),
      st.closed = true ∧ st.wire = [0x88, 2, 3, 0xE8] ∧ st.wire = (written st).flatten ∧
      (∀ x ∈ st.done, x.2 ≠ [] → IsFrame .server x.2) ∧ NoDataAfterClose (opCodes st) := by
  have hother : ∀ st : Sink Half Half.Output (List (Deflate .stored)),
      st.Calm isCloseFrame .other := fun _ _ _ _ => trivial
  refine ⟨_, ?_, ?_, no_data_after_close silentServer [] [.close, .sendBinary [7]] []
    (Relation.ReflTransGen.refl
      |>.tail ⟨_, .lock (i := .sender) rfl rfl, fun _ _ h => (by cases h)⟩
      |>.tail ⟨_, .write (i := .sender) [0x88, 2] [] rfl rfl, hother _⟩
      |>.tail ⟨_, .written (i := .sender) rfl rfl, hother _⟩
      |>.tail ⟨_, .write (i := .sender) [3, 0xE8] [] rfl rfl, hother _⟩
      |>.tail ⟨_, .written (i := .sender) rfl rfl, hother _⟩
      |>.tail ⟨_, .unlock (i := .sender) rfl rfl, hother _⟩
      |>.tail ⟨_, .lock (i := .sender) rfl rfl, fun _ _ h => (by cases h; rfl)⟩
      |>.tail ⟨_, .flush (i := .sender) true rfl, fun _ _ _ => rfl⟩
      |>.tail ⟨_, .unlock (i := .sender) rfl rfl, hother _⟩
      |>.tail ⟨_, .lock (i := .sender) rfl rfl, fun _ _ h => (by cases h; rfl)⟩
      |>.tail ⟨_, .close (i := .sender) true rfl, fun _ _ _ => rfl⟩
      |>.tail ⟨_, .unlock (i := .sender) rfl rfl, hother _⟩
      |>.tail ⟨_, .lock (i := .sender) rfl rfl, fun h => (by cases h)⟩
      |>.tail ⟨_, .rejected (i := .sender) rfl rfl, hother _⟩
      |>.tail ⟨_, .unlock (i := .sender) rfl rfl, hother _⟩)⟩
  · rfl
  · rfl

/-- After the flush of a close frame has failed, the sender sends data. -/
theorem not_no_data_after_close :
    ¬ ∀ (b : Builder (Deflate .stored)) (maskBuffer : List UInt8) (ops : List Op)
      (ms : List (List UInt8)) (st : Sink Half Half.Output (List (Deflate .stored))),
      Relation.ReflTransGen (fun st st' => ∃ a, Sink.Step st a st') (b.start maskBuffer ops ms) st →
        NoDataAfterClose (opCodes st) := by
  intro h
  have hbad := h silentServer [] [.close, .sendBinary [7]] [] _
    (Relation.ReflTransGen.refl
      |>.tail ⟨_, .lock (i := .sender) rfl rfl⟩
      |>.tail ⟨_, .write (i := .sender) [0x88, 2] [] rfl rfl⟩
      |>.tail ⟨_, .written (i := .sender) rfl rfl⟩
      |>.tail ⟨_, .write (i := .sender) [3, 0xE8] [] rfl rfl⟩
      |>.tail ⟨_, .written (i := .sender) rfl rfl⟩
      |>.tail ⟨_, .unlock (i := .sender) rfl rfl⟩
      |>.tail ⟨_, .lock (i := .sender) rfl rfl⟩
      |>.tail ⟨_, .flush (i := .sender) false rfl⟩
      |>.tail ⟨_, .unlock (i := .sender) rfl rfl⟩
      |>.tail ⟨_, .lock (i := .sender) rfl rfl⟩
      |>.tail ⟨_, .write (i := .sender) [0x82, 1] [] rfl rfl⟩
      |>.tail ⟨_, .written (i := .sender) rfl rfl⟩
      |>.tail ⟨_, .write (i := .sender) [7] [] rfl rfl⟩
      |>.tail ⟨_, .written (i := .sender) rfl rfl⟩
      |>.tail ⟨_, .unlock (i := .sender) rfl rfl⟩)
  have hocs : ¬ NoDataAfterClose [.close, .binary] := by decide
  exact hocs hbad

end Soketto
