import Soketto.Base.Codec
import Soketto.Connection

/-!
# What a healthy writer carries

* `Outgoing`: a frame as it is handed to `write`; `Outgoing.sealed` its header on the wire and
  `Outgoing.bytes` its bytes.
* `World.emit mode fs w`: the world `w` after the frames `fs` were written to it.
* **`run_write`**: on a healthy writer, `write` writes one frame, whatever the storage and the
  mask buffer hold.
-/

set_option autoImplicit false

namespace Soketto

/-- A frame to write. -/
structure Outgoing where
  header : Header
  payload : List UInt8
  deriving DecidableEq, Repr

namespace Outgoing

/-- The header with the mask and the payload length of the frame. -/
def sealed (mode : Mode) (mask : UInt32) (f : Outgoing) : Header :=
  if mode.isClient then
    { f.header with masked := true, mask, payloadLen := f.payload.length }
  else { f.header with payloadLen := f.payload.length }

/-- The bytes of the frame on the wire. -/
def bytes (mode : Mode) (mask : UInt32) (f : Outgoing) : List UInt8 :=
  Codec.headerBytes (f.sealed mode mask) ++ applyMask (f.sealed mode mask) f.payload

/-- The bytes of frames on the wire, masked with the random words in turn. -/
def encode (mode : Mode) : List UInt32 → List Outgoing → List UInt8
  | _, [] => []
  | ms, f :: fs => f.bytes mode (ms.headD 0) ++ encode mode ms.tail fs

theorem encode_append (mode : Mode) (ms : List UInt32) (fs gs : List Outgoing) :
    encode mode ms (fs ++ gs) = encode mode ms fs ++ encode mode (ms.drop fs.length) gs := by
  induction fs generalizing ms with
  | nil => rfl
  | cons f fs ih =>
    rw [List.cons_append, encode, ih, encode, List.append_assoc, List.length_cons,
      List.drop_tail]

theorem encode_server (ms ms' : List UInt32) (fs : List Outgoing) :
    encode .server ms fs = encode .server ms' fs := by
  induction fs generalizing ms ms' with
  | nil => rfl
  | cons f fs ih => rw [encode, encode, ih ms.tail ms'.tail]; rfl

end Outgoing

/-- The random words that are left after `n` frames. -/
def leftRandoms (mode : Mode) (n : ℕ) (ms : List UInt32) : List UInt32 :=
  if mode.isClient then ms.drop n else ms

/-- The world after the frames `fs` were written. -/
def emit {σ : Type} (mode : Mode) (fs : List Outgoing) (w : World σ) : World σ :=
  { w with
    wire := w.wire ++ Outgoing.encode mode w.randoms fs
    randoms := leftRandoms mode fs.length w.randoms }

section

variable {σ : Type} {mode : Mode}

theorem emit_nil (w : World σ) : emit mode [] w = w := by
  cases mode <;> simp [emit, Outgoing.encode, leftRandoms]

theorem emit_append (fs gs : List Outgoing) (w : World σ) :
    emit mode (fs ++ gs) w = emit mode gs (emit mode fs w) := by
  cases mode with
  | client =>
    simp only [emit, leftRandoms, Mode.isClient, if_true, Outgoing.encode_append,
      List.append_assoc, List.length_append, List.drop_drop]
  | server =>
    simp only [emit, leftRandoms, Mode.isClient, Bool.false_eq_true, if_false,
      Outgoing.encode_append, List.append_assoc]
    rw [Outgoing.encode_server (w.randoms.drop fs.length) w.randoms]

theorem healthy_emit (mode : Mode) {w : World σ} (h : w.Healthy) (fs : List Outgoing) :
    (emit mode fs w).Healthy := ⟨h.closed, h.outcomes⟩

theorem maskPayload_fst (h : Header) (data : Storage) (mb : List UInt8) :
    (maskPayload h data mb).1 = applyMask h data.asRef := by
  unfold maskPayload
  cases hm : h.masked
  · simp [applyMask, hm]
  · cases data <;> rfl

theorem run_sealHeader (header : Header) (data : Storage) (w : World σ) :
    (sealHeader mode header data).run w =
      (Outgoing.sealed mode (w.randoms.headD 0) ⟨header, data.asRef⟩,
        { w with randoms := leftRandoms mode 1 w.randoms }) := by
  cases mode
  · simp [sealHeader, Mode.isClient, Outgoing.sealed, leftRandoms, World.random]
  · simp [sealHeader, Mode.isClient, Outgoing.sealed, leftRandoms]

/-- **One `write` is one frame**, whatever the storage and the mask buffer hold. -/
theorem run_write {w : World σ} (hw : w.Healthy) (codec : Codec) (header : Header) (data : Storage)
    (mb : List UInt8) :
    let h := Outgoing.sealed mode (w.randoms.headD 0) ⟨header, data.asRef⟩
    (write mode codec header data mb).run w =
      ({ result := .ok (), codec := (codec.encodeHeader h).2, data := (maskPayload h data mb).2.1,
         maskBuffer := (maskPayload h data mb).2.2 },
       emit mode [⟨header, data.asRef⟩] w) := by
  intro h
  -- random words do not make a writer fail
  have hs : ∀ v : World σ, v.closed = w.closed → v.outcomes = w.outcomes → v.Healthy :=
    fun v hc ho => ⟨hc.trans hw.closed, ho.trans hw.outcomes⟩
  have h₁ := fun bs => (hs { w with randoms := leftRandoms mode 1 w.randoms } rfl rfl).writeAll bs
  have h₂ := fun ws bs => (hs { w with
    wire := ws, randoms := leftRandoms mode 1 w.randoms } rfl rfl).writeAll bs
  unfold write
  simp only [Fiber.run_bind, run_sealHeader, Fiber.run_lock, Fiber.run_writeAll, h₁, if_true,
    Fiber.run_unlock, Fiber.run_pure, h₂, Codec.encodeHeader_fst, maskPayload_fst]
  simp only [okOrClosed, if_true, emit, Outgoing.encode, Outgoing.bytes, List.append_nil,
    List.append_assoc, List.length_singleton, h]

/-- On any writer, `write` may fail in one way only, and changes the codec's scratch buffer only. -/
theorem exists_run_write (mode : Mode) (w : World σ) (codec : Codec) (header : Header) (data : Storage)
    (mb : List UInt8) :
    ∃ ok h data' mb' w', (write mode codec header data mb).run w =
      (⟨okOrClosed ok, (codec.encodeHeader h).2, data', mb'⟩, w') ∧ w'.shared = w.shared := by
  have hs : ∀ (v : World σ) bs, (v.writeAll bs).2.shared = v.shared := by
    intro v bs
    unfold World.writeAll
    split_ifs
    · rfl
    · split <;> rfl
  have h₁ := hs { w with randoms := leftRandoms mode 1 w.randoms }
    (codec.encodeHeader (Outgoing.sealed mode (w.randoms.headD 0) ⟨header, data.asRef⟩)).1
  rcases hw : World.writeAll { w with randoms := leftRandoms mode 1 w.randoms }
    (codec.encodeHeader (Outgoing.sealed mode (w.randoms.headD 0) ⟨header, data.asRef⟩)).1
      with ⟨ok, w₁⟩
  rw [hw] at h₁
  unfold write
  simp only [Fiber.run_bind, run_sealHeader, Fiber.run_lock, Fiber.run_writeAll]
  cases ok with
  | false =>
    simp only [hw, Bool.false_eq_true, if_false, Fiber.run_bind, Fiber.run_unlock, Fiber.run_pure]
    exact ⟨false, _, _, _, _, rfl, h₁⟩
  | true =>
    simp only [hw, if_true, Fiber.run_bind, Fiber.run_writeAll, Fiber.run_unlock, Fiber.run_pure]
    exact ⟨_, _, _, _, _, rfl, (hs _ _).trans h₁⟩

theorem exists_run_flushWriter (w : World σ) :
    ∃ ok w', flushWriter.run w = (okOrClosed ok, w') ∧ w'.shared = w.shared := by
  refine ⟨_, _, rfl, ?_⟩
  unfold World.flush
  split <;> rfl

theorem exists_run_closeWriter (w : World σ) :
    ∃ ok w', closeWriter.run w = (okOrClosed ok, w') ∧ w'.shared = w.shared := by
  refine ⟨_, _, rfl, ?_⟩
  unfold World.close
  split <;> rfl

theorem run_flushWriter {w : World σ} (hw : w.Healthy) : flushWriter.run w = (.ok (), w) := by
  simp [flushWriter, hw.flush, okOrClosed]

theorem run_closeWriter {w : World σ} (hw : w.Healthy) :
    closeWriter.run w = (.ok (), { w with closed := true }) := by
  simp [closeWriter, hw.close, okOrClosed]

end

end Soketto
