import Mathlib.Data.List.Forall2
import Soketto.Extension.Deflate
import Soketto.Feed.Rounds
import Soketto.Lib.Race
import Soketto.RoundTrip

/-!
# The sections in which frames are written

What the operations of the two halves write each time they hold the writer.

* `traces_write`: the section of one `write` is one frame.
* `Op.Writes`: the frames of an operation of the sender; **`traces_performAll`**.
* `Receiver.answer`: the answer to the control frame that comes next; `Receiver.Answers` the
  answers of calls one after the other; **`traces_receiveAll`**.
-/

set_option autoImplicit false

namespace Soketto

open Incremental Chunked BigEndian

/-! ## Writing -/

section

variable {σ : Type} {mode : Mode} {codec : Codec} {header : Header} {data : Storage}
  {mb : List UInt8}

theorem disciplined_sealHeader (mode : Mode) (header : Header) (data : Storage) :
    (sealHeader mode header data : Fiber σ Header).Disciplined := by
  cases mode
  · exact fun _ => rfl
  · rfl

theorem disciplined_write (mode : Mode) (codec : Codec) (header : Header) (data : Storage)
    (mb : List UInt8) : (write mode codec header data mb : Fiber σ Written).Disciplined :=
  (disciplined_sealHeader mode header data).bind fun _ => rfl

theorem disciplined_flushWriter : (flushWriter : Fiber σ (Except Error Unit)).Disciplined :=
  fun _ => rfl

theorem disciplined_closeWriter : (closeWriter : Fiber σ (Except Error Unit)).Disciplined :=
  fun _ => rfl

theorem traces_sealHeader {h : Header} {c c' : Option (List UInt8)} {secs : List (List UInt8)}
    (ht : (sealHeader mode header data : Fiber σ Header).Traces c secs h c') :
    secs = [] ∧ c' = c ∧ ∃ mask, h = Outgoing.sealed mode mask ⟨header, data.asRef⟩ := by
  cases mode with
  | client =>
    obtain ⟨mask, rfl, rfl, rfl⟩ := ht
    exact ⟨rfl, rfl, mask, rfl⟩
  | server =>
    obtain ⟨rfl, rfl, rfl⟩ := ht
    exact ⟨rfl, rfl, 0, rfl⟩

/-- **The section of a `write` is one frame**, whatever the storage and the mask buffer hold. -/
theorem traces_write {out : Written} {c' : Option (List UInt8)} {secs : List (List UInt8)}
    (ht : (write mode codec header data mb : Fiber σ Written).Traces none secs out c') :
    out.result = .ok () ∧ c' = none ∧
      ∃ mask, secs = [Outgoing.bytes mode mask ⟨header, data.asRef⟩] := by
  unfold write at ht
  obtain ⟨secs₁, secs₂, h, c₁, rfl, hseal, ht⟩ := Fiber.traces_bind.mp ht
  obtain ⟨rfl, rfl, mask, rfl⟩ := traces_sealHeader hseal
  obtain ⟨secs', rfl, rfl, rfl, rfl⟩ := ht
  refine ⟨rfl, rfl, mask, ?_⟩
  rw [List.nil_append, Outgoing.bytes, ← maskPayload_fst _ _ mb, ← Codec.encodeHeader_fst codec]
  rfl

theorem traces_flushWriter {out : Except Error Unit} {c' : Option (List UInt8)}
    {secs : List (List UInt8)}
    (ht : (flushWriter : Fiber σ (Except Error Unit)).Traces none secs out c') :
    secs = [[]] ∧ c' = none := by
  obtain ⟨ok, secs', rfl, -, rfl, rfl⟩ := ht
  exact ⟨rfl, rfl⟩

theorem traces_closeWriter {out : Except Error Unit} {c' : Option (List UInt8)}
    {secs : List (List UInt8)}
    (ht : (closeWriter : Fiber σ (Except Error Unit)).Traces none secs out c') :
    secs = [[]] ∧ c' = none := by
  obtain ⟨ok, secs', rfl, -, rfl, rfl⟩ := ht
  exact ⟨rfl, rfl⟩

end

/-- The sections write the frames `fs`, besides sections in which nothing is written. -/
def WriteFrames (mode : Mode) (secs : List (List UInt8)) (fs : List Outgoing) : Prop :=
  List.Forall₂ (fun bs f => ∃ mask, bs = Outgoing.bytes mode mask f) (secs.filter (· ≠ [])) fs

theorem Outgoing.bytes_ne_nil (mode : Mode) (mask : UInt32) (f : Outgoing) :
    f.bytes mode mask ≠ [] := by
  rw [Outgoing.bytes, Codec.headerBytes]
  exact List.cons_ne_nil _ _

section WriteFrames

variable {mode : Mode} {secs secs' : List (List UInt8)} {fs fs' : List Outgoing}

theorem writeFrames_nil : WriteFrames mode [] [] := .nil

theorem writeFrames_empty : WriteFrames mode [[]] [] := .nil

theorem writeFrames_single (mode : Mode) (mask : UInt32) (f : Outgoing) :
    WriteFrames mode [f.bytes mode mask] [f] := by
  rw [WriteFrames, List.filter_cons_of_pos (by simpa using f.bytes_ne_nil mode mask)]
  exact .cons ⟨mask, rfl⟩ .nil

theorem WriteFrames.append (h : WriteFrames mode secs fs) (h' : WriteFrames mode secs' fs') :
    WriteFrames mode (secs ++ secs') (fs ++ fs') := by
  rw [WriteFrames, List.filter_append]
  exact List.rel_append h h'

end WriteFrames

/-! ## The sender -/

/-- The frames of an operation with the given result, when extensions are used or not. An extension
may replace header and payload of a data frame, or refuse it. -/
inductive Op.Writes (E : Type) [Extension E] (ext : Bool) :
    Op → Except Error Unit → List Outgoing → Prop
  | plain {op : Op} {result : Except Error Unit}
      (h : ext = true → ∀ f ∈ op.frame, f.header.opcode.isControl = true) :
      Writes E ext op result op.frame.toList
  | encoded {op : Op} {f : Outgoing} {data : Storage} {es : List E} {enc : Encoded (List E)}
      (hx : ext = true) (hf : op.frame = some f) (hctl : f.header.opcode.isControl = false)
      (hd : data.asRef = f.payload) (henc : Extension.encodeAll es f.header data = some enc)
      (hok : enc.result = .ok ()) : Writes E ext op (.ok ()) [⟨enc.header, enc.data.asRef⟩]
  | refused {op : Op} {f : Outgoing} {data : Storage} {es : List E} {enc : Encoded (List E)}
      {e : BoxedError} (hx : ext = true) (hf : op.frame = some f)
      (hctl : f.header.opcode.isControl = false) (hd : data.asRef = f.payload)
      (henc : Extension.encodeAll es f.header data = some enc) (herr : enc.result = .error e) :
      Writes E ext op (.error (.extension e)) []

/-- The frames of operations one after the other. -/
inductive OpsWrite (E : Type) [Extension E] (ext : Bool) :
    List Op → List (Except Error Unit) → List Outgoing → Prop
  | nil : OpsWrite E ext [] [] []
  | cons {op : Op} {ops : List Op} {result : Except Error Unit}
      {results : List (Except Error Unit)} {fs gs : List Outgoing}
      (h : op.Writes E ext result fs) (hs : OpsWrite E ext ops results gs) :
      OpsWrite E ext (op :: ops) (result :: results) (fs ++ gs)

section Sender

variable {E : Type} {s : Sender} {secs : List (List UInt8)} {c' : Option (List UInt8)}

theorem disciplined_sender_write (s : Sender) (header : Header) (data : Storage) :
    (s.write header data : Fiber (List E) Sent).Disciplined :=
  (disciplined_write _ _ _ _ _).bind fun _ => rfl

theorem traces_sender_write {header : Header} {data : Storage} {out : Sent}
    (ht : (s.write header data : Fiber (List E) Sent).Traces none secs out c') :
    out.result = .ok () ∧ out.sender.mode = s.mode ∧ out.sender.hasExtensions = s.hasExtensions ∧
      c' = none ∧ WriteFrames s.mode secs [⟨header, data.asRef⟩] := by
  obtain ⟨secs₁, secs₂, wr, c₁, rfl, hwr, hret⟩ := Fiber.traces_bind.mp ht
  obtain ⟨hres, rfl, mask, rfl⟩ := traces_write hwr
  obtain ⟨rfl, rfl, rfl⟩ := hret
  exact ⟨hres, rfl, rfl, rfl, writeFrames_single _ mask _⟩

variable [Extension E]

theorem disciplined_sendFrame (s : Sender) (header : Header) (data : Storage) :
    (s.sendFrame header data : Fiber (List E) (Option Sent)).Disciplined := by
  unfold Sender.sendFrame
  split_ifs
  · exact (disciplined_sender_write s header data).bind fun _ => rfl
  · refine (Fiber.disciplined_locked _).bind fun encoded => ?_
    rcases encoded with _ | ⟨e | u, header, data⟩
    · rfl
    · rfl
    · exact (disciplined_sender_write s header data).bind fun _ => rfl

theorem disciplined_perform (s : Sender) (op : Op) :
    (s.perform op : Fiber (List E) (Option Sent)).Disciplined := by
  cases op with
  | sendText data => exact disciplined_sendFrame _ _ _
  | sendTextOwned data => exact disciplined_sendFrame _ _ _
  | sendBinary data => exact disciplined_sendFrame _ _ _
  | sendBinaryMut data => exact disciplined_sendFrame _ _ _
  | sendPing data => exact (disciplined_sender_write _ _ _).bind fun _ => rfl
  | sendPong data => exact (disciplined_sender_write _ _ _).bind fun _ => rfl
  | flush => exact disciplined_flushWriter.bind fun _ => rfl
  | close =>
    refine Fiber.Disciplined.bind ((disciplined_sender_write _ _ _).bind fun out => ?_) fun _ => rfl
    rcases out with ⟨e | u, s'⟩
    · rfl
    · refine disciplined_flushWriter.bind fun out => ?_
      rcases out with e | u
      · rfl
      · exact disciplined_closeWriter.bind fun _ => rfl

theorem disciplined_performAll (s : Sender) (ops : List Op) :
    (s.performAll ops : Fiber (List E) _).Disciplined := by
  induction ops generalizing s with
  | nil => rfl
  | cons op ops ih =>
    refine (disciplined_perform s op).bind fun out => ?_
    rcases out with _ | ⟨result, s'⟩
    · rfl
    · refine (ih s').bind fun out => ?_
      rcases out with _ | ⟨results, s''⟩ <;> rfl

/-- What an operation leaves: nothing, when an extension does not return, or the frames it has
written. -/
def Performed (E : Type) [Extension E] (s : Sender) (op : Op) (secs : List (List UInt8)) :
    Option Sent → Prop
  | none => secs = []
  | some out => out.sender.mode = s.mode ∧ out.sender.hasExtensions = s.hasExtensions ∧
    ∃ fs, op.Writes E s.hasExtensions out.result fs ∧ WriteFrames s.mode secs fs

theorem traces_plain {op : Op} {f : Outgoing} {data : Storage} {out : Option Sent}
    (hf : op.frame = some f) (hd : data.asRef = f.payload)
    (hx : s.hasExtensions = true → f.header.opcode.isControl = true)
    (ht : (do return some (← s.write f.header data) : Fiber (List E) (Option Sent)).Traces none secs
      out c') : c' = none ∧ Performed E s op secs out := by
  obtain ⟨secs₁, secs₂, sent, c₁, rfl, hwr, hret⟩ := Fiber.traces_bind.mp ht
  obtain ⟨hres, hm, hext, rfl, hw⟩ := traces_sender_write hwr
  obtain ⟨rfl, rfl, rfl⟩ := hret
  have hplain : op.Writes E s.hasExtensions sent.result op.frame.toList :=
    .plain fun h f' hf' => by
      rw [hf, Option.mem_some_iff] at hf'
      exact hf' ▸ hx h
  rw [hf] at hplain
  refine ⟨rfl, hm, hext, _, hplain, ?_⟩
  rw [List.append_nil]
  rw [hd] at hw
  exact hw

theorem traces_sendFrame {op : Op} {f : Outgoing} {data : Storage} {out : Option Sent}
    (hf : op.frame = some f) (hctl : f.header.opcode.isControl = false)
    (hd : data.asRef = f.payload)
    (ht : (s.sendFrame f.header data : Fiber (List E) (Option Sent)).Traces none secs out c') :
    c' = none ∧ Performed E s op secs out := by
  unfold Sender.sendFrame at ht
  split_ifs at ht with hx
  · refine traces_plain hf hd (fun h => ?_) ht
    rw [h] at hx
    cases hx
  · have hext : s.hasExtensions = true := by simpa using hx
    obtain ⟨secs₁, secs₂, encoded, c₁, rfl, henc, hrest⟩ := Fiber.traces_bind.mp ht
    obtain ⟨⟨es, he⟩, rfl, rfl⟩ := Fiber.traces_locked.mp henc
    rcases hes : Extension.encodeAll es f.header data with _ | enc <;> rw [hes] at he
    · subst he
      obtain ⟨rfl, rfl, rfl⟩ := hrest
      exact ⟨rfl, rfl⟩
    · replace he : some (enc.result, enc.header, enc.data) = encoded := he
      rcases hres : enc.result with e | u
      · obtain rfl : some (.error e, enc.header, enc.data) = encoded := by rw [← he, hres]
        obtain ⟨rfl, rfl, rfl⟩ := hrest
        exact ⟨rfl, rfl, rfl, [], .refused hext hf hctl hd hes hres, writeFrames_nil⟩
      · obtain rfl : some (.ok (), enc.header, enc.data) = encoded := by rw [← he, hres]
        obtain ⟨secs₁, secs₂, sent, c₁, rfl, hwr, hret⟩ := Fiber.traces_bind.mp hrest
        obtain ⟨hok, hm, hext', rfl, hw⟩ := traces_sender_write hwr
        obtain ⟨rfl, rfl, rfl⟩ := hret
        refine ⟨rfl, hm, hext', [⟨enc.header, enc.data.asRef⟩], ?_, ?_⟩
        · rw [hok]
          exact .encoded hext hf hctl hd hes hres
        · rw [List.append_nil]
          exact hw

omit [Extension E] in
theorem traces_sender_close {out : Sent}
    (ht : (s.close : Fiber (List E) Sent).Traces none secs out c') :
    out.sender.mode = s.mode ∧ out.sender.hasExtensions = s.hasExtensions ∧ c' = none ∧
      WriteFrames s.mode secs [⟨Header.new .close, beBytes 2 1000⟩] := by
  obtain ⟨secs₁, secs₂, sent, c₁, rfl, hwr, hrest⟩ := Fiber.traces_bind.mp ht
  obtain ⟨hres, hm, hext, rfl, hw⟩ := traces_sender_write hwr
  obtain ⟨result, s'⟩ := sent
  obtain rfl : result = .ok () := hres
  obtain ⟨secs₃, secs₄, fl, c₂, rfl, hfl, hrest⟩ := Fiber.traces_bind.mp hrest
  obtain ⟨rfl, rfl⟩ := traces_flushWriter hfl
  rcases fl with e | u
  · obtain ⟨rfl, rfl, rfl⟩ := hrest
    exact ⟨hm, hext, rfl, hw.append writeFrames_empty⟩
  · obtain ⟨secs₅, secs₆, cl, c₃, rfl, hcl, hret⟩ := Fiber.traces_bind.mp hrest
    obtain ⟨rfl, rfl⟩ := traces_closeWriter hcl
    obtain ⟨rfl, rfl, rfl⟩ := hret
    exact ⟨hm, hext, rfl, hw.append (writeFrames_empty.append writeFrames_empty)⟩

/-- **The sections of an operation.** -/
theorem traces_perform {op : Op} {out : Option Sent}
    (ht : (s.perform op : Fiber (List E) (Option Sent)).Traces none secs out c') :
    c' = none ∧ Performed E s op secs out := by
  cases op with
  | sendText data => exact traces_sendFrame rfl rfl rfl ht
  | sendTextOwned data => exact traces_sendFrame rfl rfl rfl ht
  | sendBinary data => exact traces_sendFrame rfl rfl rfl ht
  | sendBinaryMut data => exact traces_sendFrame rfl rfl rfl ht
  | sendPing data => exact traces_plain rfl rfl (fun _ => rfl) ht
  | sendPong data => exact traces_plain rfl rfl (fun _ => rfl) ht
  | flush =>
    obtain ⟨secs₁, secs₂, result, c₁, rfl, hfl, hret⟩ := Fiber.traces_bind.mp ht
    obtain ⟨rfl, rfl⟩ := traces_flushWriter hfl
    obtain ⟨rfl, rfl, rfl⟩ := hret
    exact ⟨rfl, rfl, rfl, [], .plain (fun _ f hf => (by cases hf)), writeFrames_empty⟩
  | close =>
    obtain ⟨secs₁, secs₂, sent, c₁, rfl, hcl, hret⟩ := Fiber.traces_bind.mp ht
    obtain ⟨hm, hext, rfl, hw⟩ := traces_sender_close hcl
    obtain ⟨rfl, rfl, rfl⟩ := hret
    refine ⟨rfl, hm, hext, _, .plain fun _ f hf => ?_, by rw [List.append_nil]; exact hw⟩
    cases hf
    rfl

/-- **The sections of operations one after the other.** -/
theorem traces_performAll {ops : List Op} {out : Option (List (Except Error Unit) × Sender)}
    (ht : (s.performAll ops : Fiber (List E) _).Traces none secs out c') :
    c' = none ∧ ∃ ops₁ results fs, ops₁ <+: ops ∧ OpsWrite E s.hasExtensions ops₁ results fs ∧
      WriteFrames s.mode secs fs ∧ ∀ x, out = some x → ops₁ = ops ∧ x.1 = results := by
  induction ops generalizing s secs out c' with
  | nil =>
    obtain ⟨rfl, rfl, rfl⟩ := ht
    refine ⟨rfl, [], [], [], List.prefix_refl _, .nil, writeFrames_nil, fun x hx => ?_⟩
    cases hx
    exact ⟨rfl, rfl⟩
  | cons op ops ih =>
    obtain ⟨secs₁, secs₂, sent, c₁, rfl, hop, hrest⟩ := Fiber.traces_bind.mp ht
    obtain ⟨rfl, hperf⟩ := traces_perform hop
    rcases sent with _ | ⟨result, s'⟩
    · obtain ⟨rfl, rfl, rfl⟩ := hrest
      obtain rfl : secs₁ = [] := hperf
      exact ⟨rfl, [], [], [], List.nil_prefix, .nil, writeFrames_nil, fun x hx => by cases hx⟩
    · obtain ⟨hm, hext, fs, hwrites, hw⟩ := hperf
      obtain ⟨secs₃, secs₄, more, c₂, rfl, hall, hret⟩ := Fiber.traces_bind.mp hrest
      obtain ⟨rfl, ops₁, results, gs, hpre, hops, hw', hsome⟩ := ih hall
      dsimp only at hm hext
      rw [hm] at hw'
      rw [hext] at hops
      rcases more with _ | ⟨results', s''⟩
      all_goals
        obtain ⟨rfl, rfl, rfl⟩ := hret
        refine ⟨rfl, op :: ops₁, result :: results, fs ++ gs, (List.prefix_cons_inj op).mpr hpre,
          .cons hwrites hops, ?_, fun x hx => ?_⟩
        · rw [List.append_nil]
          exact hw.append hw'
      · cases hx
      · cases hx
        obtain ⟨rfl, rfl⟩ := hsome _ rfl
        exact ⟨rfl, rfl⟩

end Sender

/-! ## The receiver -/

/-- The answer to a control frame. -/
def answerTo (header : Header) (payload : List UInt8) : Option Outgoing :=
  match header.opcode with
  | .ping => some ⟨Header.new .pong, payload⟩
  | .close =>
    match closeAnswer payload with
    | .error _ => none
    | .ok (answer, reason) => some ⟨answer, answerData reason⟩
  | _ => none

/-- The receiver after a round. -/
def Round.receiver : Round → Receiver
  | .again self _ => self
  | .ret _ self _ => self

namespace Receiver

/-- The answer to a control frame whose payload comes next. -/
def controlAnswer (self : Receiver) (header : Header) : Option Outgoing :=
  match self.readBuffer header with
  | (.error _, _) => none
  | (.ok (), self) => answerTo header (applyMask header (self.buffer.take header.payloadLen))

/-- The answer to the frame that comes next: none unless it is a ping or a close frame and is read
as a whole. -/
def answer (self : Receiver) : Option Outgoing :=
  if self.isClosed then none
  else
    match { self with ctrlBuffer := [] }.receiveHeader with
    | some (.ok header, self) =>
      if header.opcode.isControl then self.controlAnswer header else none
    | _ => none

section

variable {E : Type} [Extension E]

/-- Calls of `receive` one after the other with the given vectors, whatever their results. -/
def receiveAll (self : Receiver) :
    List (List UInt8) → Fiber (List E) (Option (List (Received Incoming)))
  | [] => return some []
  | m :: ms => do
    match ← self.receive m with
    | none => return none
    | some out =>
      match ← out.receiver.receiveAll ms with
      | none => return none
      | some outs => return some (out :: outs)

end

/-- The answers of the rounds to come, in a call with the locals `l` and in calls with the vectors
`ms` after it; all of them, or those up to some round. -/
inductive Answers (E : Type) [Extension E] (all : Bool) :
    Receiver → Locals → List (List UInt8) → List Outgoing → Prop
  | stop {r : Receiver} {l : Locals} {ms : List (List UInt8)} (h : all = false) :
      Answers E all r l ms []
  | again {r r' : Receiver} {l l' : Locals} {ms secs : List (List UInt8)} {fs : List Outgoing}
      (h : (r.receiveRound l : Fiber (List E) _).Traces none secs (some (.again r' l')) none)
      (hs : Answers E all r' l' ms fs) : Answers E all r l ms (r.answer.toList ++ fs)
  | last {r r' : Receiver} {l : Locals} {result : Except Error Incoming} {m : List UInt8}
      {secs : List (List UInt8)}
      (h : (r.receiveRound l : Fiber (List E) _).Traces none secs (some (.ret result r' m)) none) :
      Answers E all r l [] r.answer.toList
  | next {r r' : Receiver} {l : Locals} {result : Except Error Incoming} {m m' : List UInt8}
      {ms secs : List (List UInt8)} {fs : List Outgoing}
      (h : (r.receiveRound l : Fiber (List E) _).Traces none secs (some (.ret result r' m)) none)
      (hs : Answers E all r' (.start m') ms fs) :
      Answers E all r l (m' :: ms) (r.answer.toList ++ fs)

/-! ## Rounds -/

section

variable {E : Type} {self : Receiver} {header : Header} {l : Locals} {secs : List (List UInt8)}
  {c' : Option (List UInt8)}

theorem disciplined_flush (self : Receiver) :
    (self.flush : Fiber (List E) (Except Error Unit)).Disciplined := by
  unfold flush
  split_ifs
  · rfl
  · exact disciplined_flushWriter

theorem traces_flush {out : Except Error Unit}
    (ht : (self.flush : Fiber (List E) (Except Error Unit)).Traces none secs out c') :
    c' = none ∧ WriteFrames self.mode secs [] := by
  unfold flush at ht
  split_ifs at ht
  · obtain ⟨rfl, rfl, rfl⟩ := ht
    exact ⟨rfl, writeFrames_nil⟩
  · obtain ⟨rfl, rfl⟩ := traces_flushWriter ht
    exact ⟨rfl, writeFrames_empty⟩

theorem disciplined_onControl (self : Receiver) (header : Header) :
    (self.onControl header : Fiber (List E) _).Disciplined := by
  unfold onControl
  split
  · refine (disciplined_write _ _ _ _ _).bind fun w => ?_
    dsimp only
    cases w.result with
    | error e => rfl
    | ok u =>
      refine (disciplined_flush _).bind fun out => ?_
      cases out <;> rfl
  · rfl
  · split
    · rfl
    · refine (disciplined_write _ _ _ _ _).bind fun w => (disciplined_flush _).bind fun out => ?_
      cases out with
      | error e => rfl
      | ok u => exact disciplined_closeWriter.bind fun _ => rfl
  · rfl

/-- **The sections of an answer.** -/
theorem traces_onControl {out : Except Error (Option CloseReason) × Receiver}
    (ht : (self.onControl header : Fiber (List E) _).Traces none secs out c') :
    c' = none ∧ out.2.mode = self.mode ∧
      WriteFrames self.mode secs (answerTo header self.ctrlBuffer).toList := by
  unfold onControl at ht
  unfold answerTo
  cases hoc : header.opcode <;> rw [hoc] at ht
  case ping =>
    obtain ⟨secs₁, secs₂, w, c₁, rfl, hw, hrest⟩ := Fiber.traces_bind.mp ht
    obtain ⟨hres, rfl, mask, rfl⟩ := traces_write hw
    rw [hres] at hrest
    obtain ⟨secs₃, secs₄, fl, c₂, rfl, hfl, hret⟩ := Fiber.traces_bind.mp hrest
    obtain ⟨rfl, hnil⟩ := traces_flush hfl
    have hframe := (writeFrames_single self.mode mask
      ⟨Header.new .pong, self.ctrlBuffer⟩).append (hnil.append writeFrames_nil)
    cases fl with
    | error e =>
      obtain ⟨rfl, rfl, rfl⟩ := hret
      exact ⟨rfl, rfl, hframe⟩
    | ok u =>
      obtain ⟨rfl, rfl, rfl⟩ := hret
      exact ⟨rfl, rfl, hframe⟩
  case close =>
    dsimp only at ht ⊢
    rcases hca : closeAnswer self.ctrlBuffer with e | ⟨answer, reason⟩ <;> rw [hca] at ht
    · obtain ⟨rfl, rfl, rfl⟩ := ht
      exact ⟨rfl, rfl, writeFrames_nil⟩
    · obtain ⟨secs₁, secs₂, w, c₁, rfl, hw, hrest⟩ := Fiber.traces_bind.mp ht
      obtain ⟨-, rfl, mask, rfl⟩ := traces_write hw
      obtain ⟨secs₃, secs₄, fl, c₂, rfl, hfl, hrest⟩ := Fiber.traces_bind.mp hrest
      obtain ⟨rfl, hnil⟩ := traces_flush hfl
      have hframe := fun {ss} (h : WriteFrames self.mode ss []) =>
        (writeFrames_single self.mode mask ⟨answer, answerData reason⟩).append
          (hnil.append h)
      cases fl with
      | error e =>
        obtain ⟨rfl, rfl, rfl⟩ := hrest
        exact ⟨rfl, rfl, hframe writeFrames_nil⟩
      | ok u =>
        obtain ⟨secs₅, secs₆, cl, c₃, rfl, hcl, hret⟩ := Fiber.traces_bind.mp hrest
        obtain ⟨rfl, rfl⟩ := traces_closeWriter hcl
        obtain ⟨rfl, rfl, rfl⟩ := hret
        exact ⟨rfl, rfl, hframe writeFrames_empty⟩
  all_goals
    obtain ⟨rfl, rfl, rfl⟩ := ht
    exact ⟨rfl, rfl, writeFrames_nil⟩

theorem disciplined_controlFrame (self : Receiver) (header : Header) (l : Locals) :
    (self.controlFrame header l : Fiber (List E) Round).Disciplined := by
  unfold controlFrame
  rcases self.readBuffer header with ⟨e | u, r₁⟩
  · rfl
  · dsimp only
    split_ifs
    · rfl
    · refine (disciplined_onControl _ _).bind fun out => ?_
      rcases out with ⟨e | _ | reason, r₂⟩ <;> rfl

theorem traces_controlFrame {out : Round}
    (ht : (self.controlFrame header l : Fiber (List E) Round).Traces none secs out c') :
    c' = none ∧ out.receiver.mode = self.mode ∧
      WriteFrames self.mode secs (self.controlAnswer header).toList := by
  unfold controlFrame at ht
  unfold controlAnswer
  rcases hr : self.readBuffer header with ⟨e | u, r₁⟩ <;> rw [hr] at ht
  · obtain ⟨rfl, rfl, rfl⟩ := ht
    exact ⟨rfl, (reads_readBuffer hr).1.mode, writeFrames_nil⟩
  · dsimp only at ht ⊢
    rw [← (reads_readBuffer hr).1.mode]
    split_ifs at ht with hp
    · obtain ⟨rfl, rfl, rfl⟩ := ht
      rw [answerTo, hp]
      exact ⟨rfl, rfl, writeFrames_nil⟩
    · obtain ⟨secs₁, secs₂, ⟨res, r₂⟩, c₁, rfl, hctl, hret⟩ := Fiber.traces_bind.mp ht
      obtain ⟨rfl, hm, hw⟩ := traces_onControl hctl
      rcases res with e | _ | reason
      all_goals
        obtain ⟨rfl, rfl, rfl⟩ := hret
        rw [List.append_nil]
        exact ⟨rfl, hm, hw⟩

variable [Extension E]

theorem quiet_decodeWithExtensions (self : Receiver) (header : Header) (message : List UInt8) :
    (self.decodeWithExtensions header message : Fiber (List E) _).Quiet fun _ => True := by
  unfold decodeWithExtensions
  split_ifs
  · trivial
  · exact fun _ => trivial

theorem receiver_finishMessage (self : Receiver) (header : Header) (l : Locals) :
    (self.finishMessage header l).receiver = self := by
  unfold finishMessage
  dsimp only
  split_ifs <;> rfl

theorem quiet_assemble (self : Receiver) (header : Header) (l : Locals) :
    (self.assemble header l : Fiber (List E) Round).Quiet fun out => out.receiver = self := by
  unfold assemble
  split
  · split <;> rfl
  · split
    · rfl
    · refine Fiber.quiet_bind (quiet_decodeWithExtensions _ _ _) fun out _ => ?_
      rcases out with ⟨e | u, header, message⟩ <;> rfl
  · split
    · rfl
    · refine Fiber.quiet_bind (quiet_decodeWithExtensions _ _ _) fun out _ => ?_
      rcases out with ⟨e | u, header, message⟩
      · rfl
      · exact receiver_finishMessage _ _ _
  · split
    · rfl
    · refine Fiber.quiet_bind (quiet_decodeWithExtensions _ _ _) fun out _ => ?_
      rcases out with ⟨e | u, header, message⟩
      · rfl
      · exact receiver_finishMessage _ _ _

theorem quiet_dataFrame (self : Receiver) (header : Header) (l : Locals) :
    (self.dataFrame header l : Fiber (List E) Round).Quiet fun out =>
      out.receiver.mode = self.mode := by
  unfold dataFrame
  dsimp only
  split_ifs
  · split <;> rfl
  · obtain ⟨out, r', x, hr, -, hreads, -⟩ := self.readPayload_cases header
    rw [hr]
    rcases out with e | u
    · exact hreads.mode
    · exact (quiet_assemble r' _ _).mono fun out h => by rw [h]; exact hreads.mode

theorem disciplined_receiveRound (self : Receiver) (l : Locals) :
    (self.receiveRound l : Fiber (List E) (Option Round)).Disciplined := by
  unfold receiveRound
  split_ifs
  · rfl
  · split
    · rfl
    · rfl
    · split_ifs
      · exact (disciplined_controlFrame _ _ _).bind fun _ => rfl
      · exact (quiet_dataFrame _ _ _).disciplined.bind fun _ => rfl

/-- **The sections of a round** write the answer to its frame. -/
theorem traces_receiveRound {out : Option Round}
    (ht : (self.receiveRound l : Fiber (List E) (Option Round)).Traces none secs out c') :
    c' = none ∧ (∀ round ∈ out, round.receiver.mode = self.mode) ∧
      (out = none → self.answer = none) ∧ WriteFrames self.mode secs self.answer.toList := by
  unfold receiveRound at ht
  unfold answer
  have hsome : ∀ {round : Round} {p : Prop}, some round = none → p := fun h => nomatch h
  by_cases hc : self.isClosed = true
  · rw [if_pos hc] at ht ⊢
    obtain ⟨rfl, rfl, rfl⟩ := ht
    exact ⟨rfl, fun round h => (by cases h; rfl), hsome, writeFrames_nil⟩
  rw [if_neg hc] at ht ⊢
  rcases hh : ({ self with ctrlBuffer := [] } : Receiver).receiveHeader
    with _ | ⟨e | header, r₁⟩ <;> rw [hh] at ht
  · obtain ⟨rfl, rfl, rfl⟩ := ht
    exact ⟨rfl, fun round h => (by cases h), fun _ => rfl, writeFrames_nil⟩
  · obtain ⟨rfl, rfl, rfl⟩ := ht
    exact ⟨rfl, fun round h => (by cases h; exact (reads_receiveHeaderLoop _ _ hh).1.mode),
      hsome, writeFrames_nil⟩
  have hm : r₁.mode = self.mode := (reads_receiveHeaderLoop _ _ hh).1.mode
  rw [← hm]
  dsimp only at ht ⊢
  split_ifs at ht ⊢
  · obtain ⟨secs₁, secs₂, round, c₁, rfl, hctl, rfl, rfl, rfl⟩ := Fiber.traces_bind.mp ht
    obtain ⟨rfl, hmode, hw⟩ := traces_controlFrame hctl
    rw [List.append_nil]
    exact ⟨rfl, fun x hx => (by cases hx; exact hmode), hsome, hw⟩
  · obtain ⟨secs₁, secs₂, round, c₁, rfl, hdata, rfl, rfl, rfl⟩ := Fiber.traces_bind.mp ht
    obtain ⟨rfl, rfl, hmode⟩ := (quiet_dataFrame _ _ _).traces hdata
    exact ⟨rfl, fun x hx => (by cases hx; exact hmode), hsome, writeFrames_nil⟩

theorem disciplined_receiveLoop (fuel : ℕ) (self : Receiver) (l : Locals) :
    (receiveLoop fuel self l : Fiber (List E) _).Disciplined := by
  induction fuel generalizing self l with
  | zero => rfl
  | succ fuel ih =>
    refine (disciplined_receiveRound self l).bind fun out => ?_
    rcases out with _ | ⟨self, l⟩ | ⟨result, self, message⟩
    · rfl
    · exact ih self l
    · rfl

theorem disciplined_receiveAll (self : Receiver) (ms : List (List UInt8)) :
    (self.receiveAll ms : Fiber (List E) _).Disciplined := by
  induction ms generalizing self with
  | nil => rfl
  | cons m ms ih =>
    refine (disciplined_receiveLoop _ self (.start m)).bind fun out => ?_
    rcases out with _ | out
    · rfl
    · refine (ih out.receiver).bind fun outs => ?_
      rcases outs with _ | outs <;> rfl

/-- The answers of calls one after the other; all of them, or those up to some round. -/
def AnswersAll (E : Type) [Extension E] (all : Bool) (self : Receiver) :
    List (List UInt8) → List Outgoing → Prop
  | [], fs => fs = []
  | m :: ms, fs => Answers E all self (.start m) ms fs

/-- The answers to come after a call. -/
def AnswersAfter (E : Type) [Extension E] (all : Bool) (ms : List (List UInt8))
    (fs : List Outgoing) : Option (Received Incoming) → Prop
  | none => all = false ∧ fs = []
  | some out => AnswersAll E all out.receiver ms fs

/-- **The sections of a call** write the answers of its rounds. -/
theorem traces_receiveLoop (fuel : ℕ) {out : Option (Received Incoming)} {all : Bool}
    {ms : List (List UInt8)} {fs : List Outgoing}
    (ht : (receiveLoop fuel self l : Fiber (List E) _).Traces none secs out c')
    (hl : AnswersAfter E all ms fs out) :
    c' = none ∧ (∀ x ∈ out, x.receiver.mode = self.mode) ∧
      ∃ gs, WriteFrames self.mode secs gs ∧ Answers E all self l ms (gs ++ fs) := by
  induction fuel generalizing self l secs with
  | zero =>
    obtain ⟨rfl, rfl, rfl⟩ := ht
    obtain ⟨hall, rfl⟩ := hl
    exact ⟨rfl, fun x hx => (by cases hx), [], writeFrames_nil, .stop hall⟩
  | succ fuel ih =>
    obtain ⟨secs₁, secs₂, round, c₁, rfl, hround, hrest⟩ := Fiber.traces_bind.mp ht
    obtain ⟨rfl, hm, hnone, hw⟩ := traces_receiveRound hround
    rcases round with _ | ⟨r', l'⟩ | ⟨result, r', m'⟩
    · obtain ⟨rfl, rfl, rfl⟩ := hrest
      obtain ⟨hall, rfl⟩ := hl
      rw [hnone rfl] at hw
      exact ⟨rfl, fun x hx => (by cases hx), [], by rw [List.append_nil]; exact hw, .stop hall⟩
    · obtain ⟨rfl, hm', gs, hw', ha⟩ := ih hrest
      have hmode : r'.mode = self.mode := hm _ rfl
      rw [hmode] at hw'
      refine ⟨rfl, fun x hx => (hm' x hx).trans hmode, self.answer.toList ++ gs, hw.append hw', ?_⟩
      rw [List.append_assoc]
      exact .again hround ha
    · obtain ⟨rfl, rfl, rfl⟩ := hrest
      have hmode : r'.mode = self.mode := hm _ rfl
      refine ⟨rfl, fun x hx => by cases hx; exact hmode, self.answer.toList,
        by rw [List.append_nil]; exact hw, ?_⟩
      rcases ms with _ | ⟨m, ms⟩
      · obtain rfl : fs = [] := hl
        rw [List.append_nil]
        exact .last hround
      · exact .next hround hl

/-- **The sections of calls one after the other.** -/
theorem traces_receiveAll {ms : List (List UInt8)} {out : Option (List (Received Incoming))}
    (ht : (self.receiveAll ms : Fiber (List E) _).Traces none secs out c') :
    c' = none ∧ ∃ fs, WriteFrames self.mode secs fs ∧ AnswersAll E out.isSome self ms fs := by
  induction ms generalizing self secs out c' with
  | nil =>
    obtain ⟨rfl, rfl, rfl⟩ := ht
    exact ⟨rfl, [], writeFrames_nil, rfl⟩
  | cons m ms ih =>
    obtain ⟨secs₁, secs₂, call, c₁, rfl, hcall, hrest⟩ := Fiber.traces_bind.mp ht
    obtain rfl : c₁ = none := (disciplined_receiveLoop _ _ _).of_traces hcall
    rcases call with _ | call
    · obtain ⟨rfl, rfl, rfl⟩ := hrest
      have hl : AnswersAfter E false ms [] none := ⟨rfl, rfl⟩
      obtain ⟨-, -, gs, hw, ha⟩ := traces_receiveLoop _ hcall hl
      rw [List.append_nil] at ha ⊢
      exact ⟨rfl, gs, hw, ha⟩
    · obtain ⟨secs₃, secs₄, outs, c₂, rfl, hall, hret⟩ := Fiber.traces_bind.mp hrest
      obtain ⟨rfl, fs, hw', ha'⟩ := ih hall
      have hl : AnswersAfter E outs.isSome ms fs (some call) := ha'
      obtain ⟨-, hm, gs, hw, ha⟩ := traces_receiveLoop _ hcall hl
      rw [hm call rfl] at hw'
      rcases outs with _ | outs
      all_goals
        obtain ⟨rfl, rfl, rfl⟩ := hret
        rw [List.append_nil]
        exact ⟨rfl, gs ++ fs, hw.append hw', ha⟩

end

end Receiver

end Soketto
