import Soketto.Lib.BigEndian
import Soketto.Lib.Incremental

/-!
# The base frame codec

The model of `src/base.rs`: opcodes, frame headers, and the codec that decodes headers from the
bytes received so far and encodes them into a scratch buffer of `maxHeaderSize` bytes.

* `OpCode`, `Header`, `Codec`, `Base.Error`; `Codec.decodeHeader` is an incremental parser whose
  `take k` stands for the source's "`NeedMore` unless `k` more bytes are there".
* `HeaderBuffer.put` asks for the proof that it stays inside the scratch buffer, so
  `Codec.encodeHeader` cannot index outside of it.
* `applyMask`: every byte is xored with the mask, cyclically.
-/

set_option autoImplicit false

namespace Soketto

open Incremental BigEndian

/-- Max. size of a frame header. -/
abbrev maxHeaderSize : ℕ := 14

/-- Max. size of a control frame payload. -/
def maxCtrlBodySize : ℕ := 125

/-! ## Opcodes -/

/-- Operation codes defined in RFC 6455. -/
inductive OpCode where
  | continue
  | text
  | binary
  | close
  | ping
  | pong
  | reserved3
  | reserved4
  | reserved5
  | reserved6
  | reserved7
  | reserved11
  | reserved12
  | reserved13
  | reserved14
  | reserved15
  deriving DecidableEq, Repr

namespace OpCode

/-- Is this a control opcode? -/
def isControl : OpCode → Bool
  | close | ping | pong => true
  | _ => false

/-- Is this opcode reserved? -/
def isReserved : OpCode → Bool
  | reserved3 | reserved4 | reserved5 | reserved6 | reserved7 | reserved11 | reserved12
  | reserved13 | reserved14 | reserved15 => true
  | _ => false

/-- The opcode of a number; `none` is `UnknownOpCode`. -/
def tryFrom (val : UInt8) : Option OpCode :=
  match val.toNat with
  | 0 => some .continue
  | 1 => some text
  | 2 => some binary
  | 3 => some reserved3
  | 4 => some reserved4
  | 5 => some reserved5
  | 6 => some reserved6
  | 7 => some reserved7
  | 8 => some close
  | 9 => some ping
  | 10 => some pong
  | 11 => some reserved11
  | 12 => some reserved12
  | 13 => some reserved13
  | 14 => some reserved14
  | 15 => some reserved15
  | _ => none

/-- The number of an opcode. -/
def toU8 : OpCode → UInt8
  | .continue => 0
  | text => 1
  | binary => 2
  | close => 8
  | ping => 9
  | pong => 10
  | reserved3 => 3
  | reserved4 => 4
  | reserved5 => 5
  | reserved6 => 6
  | reserved7 => 7
  | reserved11 => 11
  | reserved12 => 12
  | reserved13 => 13
  | reserved14 => 14
  | reserved15 => 15

end OpCode

/-! ## Frame headers -/

/-- A websocket base frame header, i.e. everything but the payload. -/
structure Header where
  fin : Bool
  rsv1 : Bool
  rsv2 : Bool
  rsv3 : Bool
  masked : Bool
  opcode : OpCode
  mask : UInt32
  payloadLen : ℕ
  deriving DecidableEq, Repr

/-- A new frame header with a given opcode. -/
def Header.new (oc : OpCode) : Header where
  fin := true
  rsv1 := false
  rsv2 := false
  rsv3 := false
  masked := false
  opcode := oc
  mask := 0
  payloadLen := 0

/-- Error cases of the base frame decoder. -/
inductive Base.Error where
  | unknownOpCode
  | reservedOpCode
  | fragmentedControl
  | invalidControlFrameLen
  | invalidReservedBit (bit : UInt8)
  | payloadTooLarge (actual maximum : ℕ)
  deriving DecidableEq, Repr

/-! ## The codec -/

/-- A length code of 126: the next two bytes are the payload length. -/
def twoExt : UInt8 := 126

/-- A length code of 127: the next eight bytes are the payload length. -/
def eightExt : UInt8 := 127

/-- The scratch buffer used during header encoding. -/
structure HeaderBuffer where
  bytes : List UInt8
  length_bytes : bytes.length = maxHeaderSize
  deriving DecidableEq

/-- The zeroed scratch buffer. -/
def HeaderBuffer.zero : HeaderBuffer := ⟨List.replicate maxHeaderSize 0, List.length_replicate⟩

/-- Overwrite the bytes from `offset` on. -/
def HeaderBuffer.put (buf : HeaderBuffer) (offset : ℕ) (bs : List UInt8)
    (h : offset + bs.length ≤ maxHeaderSize) : HeaderBuffer where
  bytes := buf.bytes.take offset ++ bs ++ buf.bytes.drop (offset + bs.length)
  length_bytes := by
    have := buf.length_bytes
    simp only [List.length_append, List.length_take, List.length_drop]
    omega

/-- Codec for websocket base frames. Sizes are those of a 64-bit target. -/
structure Codec where
  maxDataSize : UInt64
  reservedBits : UInt8
  headerBuffer : HeaderBuffer
  deriving DecidableEq

namespace Codec

/-- The codec supporting payload lengths up to 256 MiB. -/
def new : Codec where
  maxDataSize := 256 * 1024 * 1024
  reservedBits := 0
  headerBuffer := HeaderBuffer.zero

/-- Limit the maximum size of payload data to `size` bytes. -/
def setMaxDataSize (c : Codec) (size : UInt64) : Codec := { c with maxDataSize := size }

/-- Add to the reserved bits in use. -/
def addReservedBits (c : Codec) (bits : Bool × Bool × Bool) : Codec :=
  { c with reservedBits := c.reservedBits |||
      (bits.1.toUInt8 <<< 2 ||| bits.2.1.toUInt8 <<< 1 ||| bits.2.2.toUInt8) }

/-- The flags and the opcode of the first header byte. -/
def decodeFlags (c : Codec) (first : UInt8) : Except Base.Error Header :=
  let fin := first &&& 0x80 != 0
  match OpCode.tryFrom (first &&& 0xF) with
  | none => .error .unknownOpCode
  | some opcode =>
    if opcode.isReserved then .error .reservedOpCode
    else if opcode.isControl && !fin then .error .fragmentedControl
    else
      let rsv1 := first &&& 0x40 != 0
      let rsv2 := first &&& 0x20 != 0
      let rsv3 := first &&& 0x10 != 0
      if rsv1 && c.reservedBits &&& 4 == 0 then .error (.invalidReservedBit 1)
      else if rsv2 && c.reservedBits &&& 2 == 0 then .error (.invalidReservedBit 2)
      else if rsv3 && c.reservedBits &&& 1 == 0 then .error (.invalidReservedBit 3)
      else .ok { Header.new opcode with fin, rsv1, rsv2, rsv3 }

/-- The payload length, from the length code of the second header byte. -/
def decodeLen (code : UInt8) : Parser Base.Error UInt8 ℕ :=
  if code = twoExt then do return beNat (← Parser.take 2)
  else if code = eightExt then do return beNat (← Parser.take 8)
  else pure code.toNat

/-- The mask, if there is one. -/
def decodeMask (masked : Bool) : Parser Base.Error UInt8 UInt32 :=
  if masked then do return UInt32.ofNat (beNat (← Parser.take 4)) else pure 0

/-- Decode a websocket frame header. -/
def decodeHeader (c : Codec) : Parser Base.Error UInt8 Header := do
  let two ← Parser.take 2
  let header ← Parser.lift (c.decodeFlags (two.getD 0 0))
  let second := two.getD 1 0
  let masked := second &&& 0x80 != 0
  let len ← decodeLen (second &&& 0x7F)
  Parser.reject (decide (maxCtrlBodySize < len) && header.opcode.isControl)
    .invalidControlFrameLen
  Parser.reject (decide (c.maxDataSize.toNat < len))
    (.payloadTooLarge len c.maxDataSize.toNat)
  let mask ← decodeMask masked
  return { header with masked, mask, payloadLen := len }

/-- The flags and the opcode as bits. -/
def flagBits (fin rsv1 rsv2 rsv3 : Bool) (opcode : OpCode) : UInt8 :=
  (if fin then 0x80 else 0) ||| (if rsv1 then 0x40 else 0) ||| (if rsv2 then 0x20 else 0) |||
    (if rsv3 then 0x10 else 0) ||| opcode.toU8

/-- The first header byte. -/
def firstByte (header : Header) : UInt8 :=
  flagBits header.fin header.rsv1 header.rsv2 header.rsv3 header.opcode

/-- The second header byte without its length code. -/
def maskBit (header : Header) : UInt8 := if header.masked then 0x80 else 0

/-- Write the second header byte and the extended payload length; the offset of the next byte. -/
def putLen (buf : HeaderBuffer) (secondByte : UInt8) (len : ℕ) : HeaderBuffer × Fin 11 :=
  if len < twoExt.toNat then (buf.put 1 [secondByte ||| UInt8.ofNat len] (by simp [maxHeaderSize]), 2)
  else if len ≤ 65535 then
    ((buf.put 1 [secondByte ||| twoExt] (by simp [maxHeaderSize])).put 2 (beBytes 2 len)
      (by rw [length_beBytes]; decide), 4)
  else
    ((buf.put 1 [secondByte ||| eightExt] (by simp [maxHeaderSize])).put 2 (beBytes 8 len)
      (by rw [length_beBytes]; decide), 10)

/-- Encode a websocket frame header. -/
def encodeHeader (c : Codec) (header : Header) : List UInt8 × Codec :=
  let buf := c.headerBuffer.put 0 [firstByte header] (by simp [maxHeaderSize])
  let (buf, offset) := putLen buf (maskBit header) header.payloadLen
  if header.masked then
    let buf := buf.put offset (beBytes 4 header.mask.toNat) (by
      have := offset.2
      rw [length_beBytes, maxHeaderSize]
      omega)
    (buf.bytes.take (offset + 4), { c with headerBuffer := buf })
  else (buf.bytes.take offset, { c with headerBuffer := buf })

end Codec

/-- Xor `data` with `key`, repeated as often as needed. -/
def xorCycle (key data : List UInt8) : List UInt8 :=
  data.mapIdx fun i byte => byte ^^^ key.getD (i % key.length) 0

/-- Use the given header's mask and apply it to the data. -/
def applyMask (header : Header) (data : List UInt8) : List UInt8 :=
  if header.masked then xorCycle (beBytes 4 header.mask.toNat) data else data

end Soketto
