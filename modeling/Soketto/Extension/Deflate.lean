import Soketto.Connection

/-!
# The deflate extension

The model of `src/extension/deflate.rs`. The compression library is a parameter, `Flate`: a
decoder that is a function of the bytes written to it, and a compressor with a state of its own.

* `Deflate F`: the extension; `Deflate.configure`, `Deflate.decode`, `Deflate.encode` and its
  `Extension` instance.
* `encode` has two loops that end when the compressor lets them. They are given `F.rounds` rounds.
* A `Vec` is its bytes and a capacity. The capacity of a vector that comes from outside of the
  extension is not known to the model, which takes the least possible one.
-/

set_option autoImplicit false

namespace Soketto

/-! ## The compression library -/

/-- Values which indicate the form of flushing to be used when compressing. -/
inductive FlushCompress where
  | none
  | sync
  deriving DecidableEq, Repr

/-- Possible status results of compressing some data. -/
inductive Status where
  | ok
  | bufError
  | streamEnd
  deriving DecidableEq, Repr

/-- What the extension uses of the compression library. `inflate` gives all output for the bytes
written to a decoder that is then finished, and the error if there is one. `compressVec` is given
the input and the spare capacity of the output vector, and gives the bytes appended to it. -/
structure Flate where
  Compress : Type
  inflate : List UInt8 → List UInt8 × Option BoxedError
  newWithWindowBits : UInt8 → Compress
  totalIn : Compress → ℕ
  compressVec : Compress → List UInt8 → ℕ → FlushCompress →
    Except BoxedError Status × Compress × List UInt8
  rounds : ℕ

/-- A vector of bytes. -/
structure Vec where
  bytes : List UInt8
  capacity : ℕ
  length_le : bytes.length ≤ capacity
  deriving DecidableEq

namespace Vec

/-- The vector of some bytes with no room to spare. -/
def ofBytes (bs : List UInt8) : Vec := ⟨bs, bs.length, le_refl _⟩

/-- Remove all bytes, keeping the capacity. -/
def clear (v : Vec) : Vec := ⟨[], v.capacity, Nat.zero_le _⟩

/-- Make room for `additional` more bytes. -/
def reserve (v : Vec) (additional : ℕ) : Vec where
  bytes := v.bytes
  capacity :=
    if additional ≤ v.capacity - v.bytes.length then v.capacity
    else max 8 (max (v.capacity * 2) (v.bytes.length + additional))
  length_le := by
    have := v.length_le
    split_ifs <;> omega

/-- The number of bytes there is room for. -/
def spare (v : Vec) : ℕ := v.capacity - v.bytes.length

/-- Append bytes for which there is room; what does not fit is cut off. -/
def fill (v : Vec) (bs : List UInt8) : Vec where
  bytes := v.bytes ++ bs.take v.spare
  capacity := v.capacity
  length_le := by
    have := v.length_le
    have := List.length_take_le v.spare bs
    rw [List.length_append, spare] at *
    omega

end Vec

/-! ## The extension -/

/-- The bytes of an empty deflate block that are not sent. -/
def emptyBlock : List UInt8 := [0, 0, 0xFF, 0xFF]

def serverNoContextTakeover : String := "server_no_context_takeover"
def serverMaxWindowBits : String := "server_max_window_bits"
def clientNoContextTakeover : String := "client_no_context_takeover"
def clientMaxWindowBits : String := "client_max_window_bits"

/-- The deflate extension type. -/
structure Deflate (F : Flate) where
  mode : Mode
  enabled : Bool
  buffer : Vec
  params : List Param
  ourMaxWindowBits : UInt8
  theirMaxWindowBits : UInt8
  awaitLastFragment : Bool
  deriving DecidableEq

/-- The value of decimal digits, if it is a `u8`. -/
def digitsToU8 (cs : List Char) : Option UInt8 :=
  if cs = [] ∨ ¬cs.all Char.isDigit then none
  else
    let n := cs.foldl (fun n c => 10 * n + (c.toNat - '0'.toNat)) 0
    if n < 256 then some (UInt8.ofNat n) else none

/-- The `u8` a string spells; a plus sign may come first. -/
def parseU8 (s : String) : Option UInt8 :=
  match s.toList with
  | '+' :: cs => digitsToU8 cs
  | cs => digitsToU8 cs

namespace Deflate

variable {F : Flate}

/-- Create a new deflate extension either on client or server side. -/
def new (mode : Mode) : Deflate F where
  mode := mode
  enabled := false
  buffer := Vec.ofBytes []
  params :=
    match mode with
    | .server => []
    | .client => [.new serverNoContextTakeover, .new clientNoContextTakeover,
        .new clientMaxWindowBits]
  ourMaxWindowBits := 15
  theirMaxWindowBits := 15
  awaitLastFragment := false

/-- A window parameter with a value. -/
def windowParam (name : String) (bits : UInt8) : Param :=
  (Param.new name).setValue (some (toString bits.toNat))

/-- Set the server's max. window bits; `none` is a failed assertion. -/
def setMaxServerWindowBits (self : Deflate F) (max : UInt8) : Option (Deflate F) :=
  if self.mode = .client ∧ 8 < max ∧ max ≤ 15 then
    some { self with
      theirMaxWindowBits := max
      params := self.params ++ [windowParam serverMaxWindowBits max] }
  else none

/-- Give the first parameter of this name the value, or add one. -/
def setOrPush (name : String) (bits : UInt8) : List Param → List Param
  | [] => [windowParam name bits]
  | p :: ps =>
    if p.name = name then p.setValue (some (toString bits.toNat)) :: ps
    else p :: setOrPush name bits ps

/-- Set the client's max. window bits; `none` is a failed assertion. -/
def setMaxClientWindowBits (self : Deflate F) (max : UInt8) : Option (Deflate F) :=
  if self.mode = .client ∧ 8 < max ∧ max ≤ 15 then
    some { self with
      ourMaxWindowBits := max
      params := setOrPush clientMaxWindowBits max self.params }
  else none

/-- Take over the peer's max. window bits; `none` is an error. -/
def setTheirMaxWindowBits (self : Deflate F) (p : Param) (expected : Option UInt8) :
    Option (Deflate F) :=
  match p.value.bind parseU8 with
  | none => some self
  | some v =>
    if v < 8 ∨ 15 < v then none
    else if (match expected with | some x => decide (x < v) | none => false) then none
    else some { self with theirMaxWindowBits := max 9 v }

/-- One parameter of a client's offer. The flag tells whether to go on. -/
def serverParam (self : Deflate F) (p : Param) : Deflate F × Bool :=
  if p.name = clientMaxWindowBits then
    match self.setTheirMaxWindowBits p none with
    | none => (self, false)
    | some self => (self, true)
  else if p.name = serverMaxWindowBits then
    match p.value.bind parseU8 with
    | some v =>
      if v < 9 ∨ 15 < v then (self, false)
      else
        ({ self with
            params := self.params ++ [windowParam serverMaxWindowBits v]
            ourMaxWindowBits := v }, true)
    | none => (self, false)
  else if p.name = clientNoContextTakeover then
    ({ self with params := self.params ++ [.new clientNoContextTakeover] }, true)
  else if p.name = serverNoContextTakeover then
    ({ self with params := self.params ++ [.new serverNoContextTakeover] }, true)
  else (self, false)

/-- One parameter of a server's answer. -/
def clientParam (self : Deflate F) (p : Param) : Deflate F × Bool :=
  if p.name = serverNoContextTakeover then (self, true)
  else if p.name = clientNoContextTakeover then (self, true)
  else if p.name = serverMaxWindowBits then
    match self.setTheirMaxWindowBits p (some self.theirMaxWindowBits) with
    | none => (self, false)
    | some self => (self, true)
  else if p.name = clientMaxWindowBits then
    match p.value.bind parseU8 with
    | some v =>
      if v < 8 ∨ 15 < v then (self, false)
      else ({ self with ourMaxWindowBits := min self.ourMaxWindowBits (max 9 v) }, true)
    | none => (self, true)
  else (self, false)

/-- All parameters in turn, until one stops the walk. -/
def walkParams (step : Deflate F → Param → Deflate F × Bool) :
    Deflate F → List Param → Deflate F × Bool
  | self, [] => (self, true)
  | self, p :: ps =>
    match step self p with
    | (self, false) => (self, false)
    | (self, true) => walkParams step self ps

/-- Configure this extension with the parameters received from negotiation. -/
def configure (self : Deflate F) (params : List Param) : Except BoxedError Unit × Deflate F :=
  match self.mode with
  | .server =>
    match walkParams serverParam { self with params := [] } params with
    | (self, false) => (.ok (), self)
    | (self, true) => (.ok (), { self with enabled := true })
  | .client =>
    match walkParams clientParam self params with
    | (self, false) => (.ok (), self)
    | (self, true) =>
      if params.any (·.name = serverNoContextTakeover) then (.ok (), { self with enabled := true })
      else (.ok (), self)

/-! ## Decoding -/

/-- Inflate the accumulated payload data. -/
def inflateData (self : Deflate F) (header : Header) (data : List UInt8) : Decoded (Deflate F) :=
  let data := data ++ emptyBlock
  match F.inflate data with
  | (out, some e) =>
    { result := .error e, ext := { self with buffer := Vec.ofBytes out }, header, data }
  | (out, none) =>
    { result := .ok ()
      ext := { self with buffer := Vec.ofBytes data }
      header := { header with rsv1 := false, payloadLen := out.length }
      data := out }

/-- Decode the given frame: inflate the message of a compressed data frame or of the last fragment
that was waited for. -/
def decode (self : Deflate F) (header : Header) (data : List UInt8) : Decoded (Deflate F) :=
  if data.isEmpty then ⟨.ok (), self, header, data⟩
  else if (header.opcode = .binary ∨ header.opcode = .text) ∧ header.rsv1 then
    if !header.fin then ⟨.ok (), { self with awaitLastFragment := true }, header, data⟩
    else self.inflateData header data
  else if header.opcode = .continue ∧ header.fin ∧ self.awaitLastFragment then
    { self with awaitLastFragment := false }.inflateData header data
  else ⟨.ok (), self, header, data⟩

/-! ## Encoding -/

/-- Compress all input bytes. -/
def compressInput : ℕ → F.Compress → List UInt8 → Vec →
    Option (Except BoxedError Unit × F.Compress × Vec)
  | 0, _, _, _ => none
  | fuel + 1, encoder, data, buffer =>
    if F.totalIn encoder < data.length then
      let i := F.totalIn encoder
      match F.compressVec encoder (data.drop i) buffer.spare .none with
      | (.error e, encoder, out) => some (.error e, encoder, buffer.fill out)
      | (.ok .bufError, encoder, out) => compressInput fuel encoder data ((buffer.fill out).reserve 4096)
      | (.ok .ok, encoder, out) => compressInput fuel encoder data (buffer.fill out)
      | (.ok .streamEnd, encoder, out) => some (.ok (), encoder, buffer.fill out)
    else some (.ok (), encoder, buffer)

/-- Append an empty deflate block if not there yet. -/
def appendEmptyBlock : ℕ → F.Compress → Vec → Option (Except BoxedError Unit × F.Compress × Vec)
  | 0, _, _ => none
  | fuel + 1, encoder, buffer =>
    if emptyBlock.isSuffixOf buffer.bytes then some (.ok (), encoder, buffer)
    else
      let buffer := buffer.reserve 5
      match F.compressVec encoder [] buffer.spare .sync with
      | (.error e, encoder, out) => some (.error e, encoder, buffer.fill out)
      | (.ok .ok, encoder, out) => appendEmptyBlock fuel encoder (buffer.fill out)
      | (.ok .bufError, encoder, out) => appendEmptyBlock fuel encoder (buffer.fill out)
      | (.ok .streamEnd, encoder, out) => some (.ok (), encoder, buffer.fill out)

/-- The buffer after both loops, with the compressed data. -/
def compressData (self : Deflate F) (data : List UInt8) : Option (Except BoxedError Unit × Vec) :=
  let buffer := self.buffer.clear.reserve data.length
  let encoder := F.newWithWindowBits self.ourMaxWindowBits
  match compressInput F.rounds encoder data buffer with
  | none => none
  | some (.error e, _, buffer) => some (.error e, buffer)
  | some (.ok (), encoder, buffer) =>
    (appendEmptyBlock F.rounds encoder buffer).map fun (r, _, buffer) => (r, buffer)

/-- Encode a frame, given as frame header and payload data. -/
def encode (self : Deflate F) (header : Header) (data : Storage) : Option (Encoded (Deflate F)) :=
  if data.asRef.isEmpty then some ⟨.ok (), self, header, data⟩
  else if ¬(header.opcode = .binary ∨ header.opcode = .text) then
    some ⟨.ok (), self, header, data⟩
  else
    match self.compressData data.asRef with
    | none => none
    | some (.error e, buffer) => some ⟨.error e, { self with buffer }, header, data⟩
    | some (.ok (), buffer) =>
      if !emptyBlock.isSuffixOf buffer.bytes then
        some ⟨.error ⟨"missing 00 00 FF FF"⟩, { self with buffer }, header, data⟩
      else
        let bytes := buffer.bytes.take (buffer.bytes.length - 4)
        let buffer := match data with
          | .owned d => Vec.ofBytes d
          | _ => Vec.ofBytes []
        some {
          result := .ok ()
          ext := { self with buffer }
          header := { header with rsv1 := true, payloadLen := bytes.length }
          data := .owned bytes }

instance : Extension (Deflate F) where
  isEnabled self := self.enabled
  name _ := "permessage-deflate"
  params self := self.params
  configure := configure
  encode := encode
  decode := decode
  reservedBits _ := (true, false, false)

end Deflate

/-! ## Stored blocks

The least compression library there is: it stores data in blocks that are not compressed, and
inflates such blocks. -/

/-- Inflate stored blocks, each with its length and the complement of the length. -/
def inflateStored : ℕ → List UInt8 → List UInt8 × Option BoxedError
  | fuel + 1, 0 :: l₀ :: l₁ :: n₀ :: n₁ :: bs =>
    if n₀ = ~~~l₀ ∧ n₁ = ~~~l₁ then
      let len := l₀.toNat + 256 * l₁.toNat
      let (out, err) := inflateStored fuel (bs.drop len)
      (bs.take len ++ out, err)
    else ([], some ⟨"corrupt deflate stream"⟩)
  | _, b :: _ => ([], if b = 0 then none else some ⟨"corrupt deflate stream"⟩)
  | _, [] => ([], none)

/-- The stored block of the first bytes of some data. -/
def storedBlock (data : List UInt8) : List UInt8 :=
  let len := (data.take 65535).length
  let l₀ := UInt8.ofNat (len % 256)
  let l₁ := UInt8.ofNat (len / 256)
  [0, l₀, l₁, ~~~l₀, ~~~l₁] ++ data.take 65535

/-- The compression library that stores data. The state of its compressor is the number of bytes it
has seen. -/
def Flate.stored : Flate where
  Compress := ℕ
  inflate data := inflateStored data.length data
  newWithWindowBits _ := 0
  totalIn n := n
  compressVec n data spare _ :=
    let block := storedBlock data
    if block.length ≤ spare then (.ok .ok, n + (data.take 65535).length, block)
    else (.ok .bufError, n, [])
  rounds := 16

/-- The extension of a server whose client asks for no parameter. -/
def Deflate.stored : Deflate .stored := (Deflate.new .server).configure [] |>.2

end Soketto
