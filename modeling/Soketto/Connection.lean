import Soketto.Extension
import Soketto.Lib.Chunked
import Soketto.Lib.Fiber

/-!
# The connection after the handshake

The model of `src/connection.rs`, `src/data.rs` and `read` of `src/lib.rs`: the `Sender` and the
`Receiver` of a connection as fibers that share the writer and the extensions.

* The reading half belongs to the receiver alone, so reads are functions of `Receiver.reader`.
* `receive`, `receiveData` and `receiveHeader` are loops. They are given as many rounds as there
  are bytes to come, plus one; `none` is a loop that is not finished then.
* `usize` has 64 bits; an underflow wraps, as in a release build.
-/

set_option autoImplicit false

namespace Soketto

open Incremental BigEndian
open Chunked (IoError Source)

/-! ## Types -/

/-- Text or binary data (number of bytes). -/
inductive Data where
  | text (n : ℕ)
  | binary (n : ℕ)
  deriving DecidableEq, Repr

/-- The length of data (number of bytes). -/
def Data.len : Data → ℕ
  | text n | binary n => n

/-- A byte slice of at most 125 bytes. -/
structure ByteSlice125 where
  bytes : List UInt8
  length_le : bytes.length ≤ 125
  deriving DecidableEq

/-- Reason for closing the connection. -/
structure CloseReason where
  code : UInt16
  descr : Option String
  deriving DecidableEq, Repr

/-- Data received from the remote end. -/
inductive Incoming where
  | data (d : Data)
  | pong (payload : List UInt8)
  | closed (reason : CloseReason)
  deriving DecidableEq, Repr

/-- Errors which may occur when sending or receiving messages. The UTF-8 error is a function of
the bytes that were checked, which stand for it. -/
inductive Error where
  | io (e : IoError)
  | codec (e : Base.Error)
  | extension (e : BoxedError)
  | unexpectedOpCode (oc : OpCode)
  | utf8 (reason : List UInt8)
  | messageTooLarge (current maximum : ℕ)
  | closed
  deriving DecidableEq, Repr

/-- The end of the input is the end of the connection. -/
def Error.ofIo : IoError → Error
  | .unexpectedEof => closed
  | e => io e

/-- Is the connection used by a client or server? -/
inductive Mode where
  | client
  | server
  deriving DecidableEq, Repr

/-- The client masks its payload data. -/
def Mode.isClient : Mode → Bool
  | client => true
  | server => false

/-- The sending half of a connection. -/
structure Sender where
  mode : Mode
  codec : Codec
  maskBuffer : List UInt8
  hasExtensions : Bool
  deriving DecidableEq

/-- The receiving half of a connection. -/
structure Receiver where
  mode : Mode
  codec : Codec
  reader : Source UInt8
  hasExtensions : Bool
  buffer : List UInt8
  ctrlBuffer : List UInt8
  maxMessageSize : UInt64
  isClosed : Bool
  deriving DecidableEq

/-- The greatest `usize`. -/
def usizeMax : ℕ := 2 ^ 64 - 1

/-- Addition that stays at the greatest `usize`. -/
def saturatingAdd (a b : ℕ) : ℕ := min (a + b) usizeMax

/-- Subtraction that wraps around. -/
def wrappingSub (a b : ℕ) : ℕ := if b ≤ a then a - b else a + 2 ^ 64 - b

/-! ## Writing -/

/-- What `write` leaves: its result, the codec, the payload and the mask buffer. -/
structure Written where
  result : Except Error Unit
  codec : Codec
  data : Storage
  maskBuffer : List UInt8

/-- Failures of the writer are not told apart. -/
def okOrClosed (ok : Bool) : Except Error Unit := if ok then .ok () else .error .closed

/-- The payload bytes to write, and the storage and mask buffer after masking: shared bytes are
masked in the mask buffer, others in place. -/
def maskPayload (header : Header) (data : Storage) (maskBuffer : List UInt8) :
    List UInt8 × Storage × List UInt8 :=
  if !header.masked then (data.asRef, data, maskBuffer)
  else
    match data with
    | .shared slice => (applyMask header slice, .shared slice, applyMask header slice)
    | .unique slice => (applyMask header slice, .unique (applyMask header slice), maskBuffer)
    | .owned bytes => (applyMask header bytes, .owned (applyMask header bytes), maskBuffer)

section Fibers

variable {σ : Type}

/-- The header with the mask and the payload length it is written with. -/
def sealHeader (mode : Mode) (header : Header) (data : Storage) : Fiber σ Header := do
  if mode.isClient then
    let mask ← Fiber.random
    return { header with masked := true, mask, payloadLen := data.asRef.length }
  else
    return { header with payloadLen := data.asRef.length }

/-- Write header and payload data to socket. -/
def write (mode : Mode) (codec : Codec) (header : Header) (data : Storage)
    (maskBuffer : List UInt8) : Fiber σ Written := do
  let header ← sealHeader mode header data
  let (headerBytes, codec) := codec.encodeHeader header
  Fiber.lock
  if ← Fiber.writeAll headerBytes then
    let (bytes, data, maskBuffer) := maskPayload header data maskBuffer
    let ok ← Fiber.writeAll bytes
    Fiber.unlock
    return { result := okOrClosed ok, codec, data, maskBuffer }
  else
    Fiber.unlock
    return { result := .error .closed, codec, data, maskBuffer }

/-- Flush the writer. -/
def flushWriter : Fiber σ (Except Error Unit) := do
  Fiber.lock
  let ok ← Fiber.flush
  Fiber.unlock
  return okOrClosed ok

/-- Close the writer. -/
def closeWriter : Fiber σ (Except Error Unit) := do
  Fiber.lock
  let ok ← Fiber.close
  Fiber.unlock
  return okOrClosed ok

end Fibers

/-- The codes a peer may close with. -/
def isAcceptableCode (code : UInt16) : Bool :=
  let n := code.toNat
  (1000 ≤ n && n ≤ 1003) || (1007 ≤ n && n ≤ 1011) || n == 1012 || n == 1013 || n == 1015 ||
    (3000 ≤ n && n ≤ 4999)

/-- Create a close frame based on the given data. The close frame is echoed back to the sender. -/
def closeAnswer (data : List UInt8) : Except Error (Header × Option CloseReason) :=
  let answer := Header.new .close
  match data with
  | d₀ :: d₁ :: reason =>
    match String.fromUTF8? ⟨reason.toArray⟩ with
    | none => .error (.utf8 reason)
    | some descr =>
      let code := UInt16.ofNat (beNat [d₀, d₁])
      if isAcceptableCode code then .ok (answer, some ⟨code, some descr⟩)
      else .ok (answer, some ⟨1002, none⟩)
  | _ => .ok (answer, none)

/-- The payload of the close frame that is sent back. -/
def answerData : Option CloseReason → List UInt8
  | some r => beBytes 2 r.code.toNat
  | none => []

/-! ## Reading -/

/-- Fill the buffer from the source with up to `max` bytes. The buffer is enlarged before the read
and truncated after it, unless the read fails. -/
def read (reader : Source UInt8) (dest : List UInt8) (max : ℕ) :
    Except IoError Unit × Source UInt8 × List UInt8 :=
  match Chunked.read max reader with
  | (.error e, reader) => (.error e, reader, dest ++ List.replicate max 0)
  | (.ok got, reader) =>
    (if got.length = 0 then .error .unexpectedEof else .ok (), reader, dest ++ got)

/-- Fill `n` new bytes at the end of `dest` from the source; bytes that do not arrive are zero. -/
def readExactInto (reader : Source UInt8) (dest : List UInt8) (n : ℕ) :
    Option IoError × Source UInt8 × List UInt8 :=
  let (got, err, reader) := Chunked.readExact n reader
  (err, reader, dest ++ got ++ List.replicate (n - got.length) 0)

namespace Receiver

/-- Rounds of `receiveHeader`. -/
def receiveHeaderLoop : ℕ → Receiver → Option (Except Error Header × Receiver)
  | 0, _ => none
  | fuel + 1, self =>
    match self.codec.decodeHeader.run self.buffer with
    | .error e => some (.error (.codec e), self)
    | .ok (.done header offset) => some (.ok header, { self with buffer := self.buffer.drop offset })
    | .ok (.needMore n) =>
      match Soketto.read self.reader self.buffer n with
      | (.error e, reader, buffer) => some (.error (.ofIo e), { self with reader, buffer })
      | (.ok (), reader, buffer) => receiveHeaderLoop fuel { self with reader, buffer }

/-- Read the next frame header. -/
def receiveHeader (self : Receiver) : Option (Except Error Header × Receiver) :=
  receiveHeaderLoop ((Chunked.bytes self.reader).length + 1) self

/-- Read the complete payload data into the read buffer. -/
def readBuffer (self : Receiver) (header : Header) : Except Error Unit × Receiver :=
  if header.payloadLen ≤ self.buffer.length then (.ok (), self)
  else
    match readExactInto self.reader self.buffer (header.payloadLen - self.buffer.length) with
    | (some e, reader, buffer) => (.error (.ofIo e), { self with reader, buffer })
    | (none, reader, buffer) => (.ok (), { self with reader, buffer })

/-- Move what the buffer holds of the payload to `message`; the number of bytes still to read. -/
def takeBuffered (self : Receiver) (required : ℕ) (message : List UInt8) :
    ℕ × Receiver × List UInt8 :=
  if self.buffer.length = 0 then (required, self, message)
  else if required > self.buffer.length then
    (required - self.buffer.length, { self with buffer := [] }, message ++ self.buffer)
  else
    (0, { self with buffer := self.buffer.drop required }, message ++ self.buffer.take required)

/-- Append the frame's unmasked payload to `message`, from buffer or socket. -/
def readPayload (self : Receiver) (header : Header) (message : List UInt8) :
    Except Error Unit × Receiver × List UInt8 :=
  let oldLen := message.length
  let (bytesToRead, self, message) := self.takeBuffered header.payloadLen message
  if bytesToRead = 0 then
    (.ok (), self, message.take oldLen ++ applyMask header (message.drop oldLen))
  else
    match readExactInto self.reader message bytesToRead with
    | (some e, reader, message) => (.error (.ofIo e), { self with reader }, message)
    | (none, reader, message) =>
      (.ok (), { self with reader }, message.take oldLen ++ applyMask header (message.drop oldLen))

section Fibers

variable {E : Type}

/-- Flush the socket buffer. -/
def flush (self : Receiver) : Fiber (List E) (Except Error Unit) := do
  if self.isClosed then return .ok () else flushWriter

/-- Answer incoming control frames. -/
def onControl (self : Receiver) (header : Header) :
    Fiber (List E) (Except Error (Option CloseReason) × Receiver) :=
  match header.opcode with
  | .ping => do
    let w ← write self.mode self.codec (Header.new .pong) (.unique self.ctrlBuffer) []
    let self := { self with codec := w.codec, ctrlBuffer := w.data.asRef }
    match w.result with
    | .error e => return (.error e, self)
    | .ok () =>
      match ← self.flush with
      | .error e => return (.error e, self)
      | .ok () => return (.ok none, self)
  | .pong => return (.ok none, self)
  | .close =>
    match closeAnswer self.ctrlBuffer with
    | .error e => return (.error e, self)
    | .ok (answer, reason) => do
      let w ← write self.mode self.codec answer (.unique (answerData reason)) []
      let self := { self with codec := w.codec }
      match ← self.flush with
      | .error e => return (.error e, self)
      | .ok () =>
        let _ ← closeWriter
        return (.ok reason, { self with isClosed := true })
  | oc => return (.error (.unexpectedOpCode oc), self)

/-- Apply all extensions to the given header and message. -/
def decodeWithExtensions [Extension E] (self : Receiver) (header : Header) (message : List UInt8) :
    Fiber (List E) (Except Error Unit × Header × List UInt8) :=
  if !self.hasExtensions then return (.ok (), header, message)
  else Fiber.locked fun es =>
    let d := Extension.decodeAll es header message
    ((d.result.mapError .extension, d.header, d.data), d.ext)

end Fibers

end Receiver

end Soketto
