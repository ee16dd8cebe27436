import Soketto.Connection

/-!
# Receiving messages

The model of `Receiver::receive`, `Receiver::receive_data` and `discard_bytes`. A round of
`receive` takes one frame off the connection; what the loop keeps between rounds are its `Locals`.

* `Receiver.receiveRound`: one round, by `controlFrame` or `dataFrame` and `assemble`.
* `Receiver.receive`, `Receiver.receiveData`: the loops.
-/

set_option autoImplicit false

namespace Soketto

open Chunked (IoError Source)

/-- The local variables of `receive`. -/
structure Locals where
  firstFragmentOpcode : Option OpCode
  length : ℕ
  messageLen : ℕ
  message : List UInt8
  deriving DecidableEq, Repr

/-- The locals before the first round. -/
def Locals.start (message : List UInt8) : Locals where
  firstFragmentOpcode := none
  length := 0
  messageLen := message.length
  message := message

/-- How a round of `receive` ends: `continue`, or `return`. -/
inductive Round where
  | again (self : Receiver) (l : Locals)
  | ret (result : Except Error Incoming) (self : Receiver) (message : List UInt8)

/-- What a call leaves: its result, the receiver and `message`. -/
structure Received (α : Type) where
  result : Except Error α
  receiver : Receiver
  message : List UInt8

namespace Receiver

/-- Discard `n` bytes from the underlying reader. -/
def discardBytes (n : ℕ) (reader : Source UInt8) : Option IoError × Source UInt8 :=
  Chunked.discard n reader

/-- Return the number of bytes added to `message`. -/
def finishMessage (self : Receiver) (header : Header) (l : Locals) : Round :=
  let numBytes := wrappingSub l.message.length l.messageLen
  if header.opcode = .text then .ret (.ok (.data (.text numBytes))) self l.message
  else .ret (.ok (.data (.binary numBytes))) self l.message

section Fibers

variable {E : Type}

/-- The bytes still to come, from the buffer and the reader. -/
def remaining (self : Receiver) : ℕ := self.buffer.length + (Chunked.bytes self.reader).length

/-- Handle control frames: `PING`, `PONG` and `CLOSE`. -/
def controlFrame (self : Receiver) (header : Header) (l : Locals) : Fiber (List E) Round :=
  match self.readBuffer header with
  | (.error e, self) => return .ret (.error e) self l.message
  | (.ok (), self) =>
    let payload := self.buffer.take header.payloadLen
    let self := { self with
      buffer := self.buffer.drop header.payloadLen, ctrlBuffer := applyMask header payload }
    if header.opcode = .pong then return .ret (.ok (.pong self.ctrlBuffer)) self l.message
    else do
      match ← self.onControl header with
      | (.error e, self) => return .ret (.error e) self l.message
      | (.ok (some reason), self) => return .ret (.ok (.closed reason)) self l.message
      | (.ok none, self) => return .again self l

variable [Extension E]

/-- Put the frame in its place in the message: its payload is already at the end of `message`. -/
def assemble (self : Receiver) (header : Header) (l : Locals) : Fiber (List E) Round :=
  match header.fin, header.opcode with
  | false, .continue =>
    match l.firstFragmentOpcode with
    | none => return .ret (.error (.unexpectedOpCode .continue)) self l.message
    | some _ => return .again self l
  | false, oc =>
    match l.firstFragmentOpcode with
    | some _ => return .ret (.error (.unexpectedOpCode oc)) self l.message
    | none => do
      match ← self.decodeWithExtensions header l.message with
      | (.error e, _, message) => return .ret (.error e) self message
      | (.ok (), _, message) =>
        return .again self { l with firstFragmentOpcode := some oc, message }
  | true, .continue =>
    match l.firstFragmentOpcode with
    | none => return .ret (.error (.unexpectedOpCode .continue)) self l.message
    | some oc => do
      let header := { header with payloadLen := l.message.length }
      match ← self.decodeWithExtensions header l.message with
      | (.error e, _, message) => return .ret (.error e) self message
      | (.ok (), header, message) =>
        return self.finishMessage { header with opcode := oc } { l with message }
  | true, oc =>
    match l.firstFragmentOpcode with
    | some _ => return .ret (.error (.unexpectedOpCode oc)) self l.message
    | none => do
      match ← self.decodeWithExtensions header l.message with
      | (.error e, _, message) => return .ret (.error e) self message
      | (.ok (), header, message) => return self.finishMessage header { l with message }

/-- Handle data frames: check the accumulated length, get the payload and assemble. -/
def dataFrame (self : Receiver) (header : Header) (l : Locals) : Fiber (List E) Round :=
  let length := saturatingAdd l.length header.payloadLen
  if length > self.maxMessageSize.toNat then
    match discardBytes length self.reader with
    | (some e, reader) => return .ret (.error (.ofIo e)) { self with reader } l.message
    | (none, reader) =>
      return .ret (.error (.messageTooLarge length self.maxMessageSize.toNat)) { self with reader }
        l.message
  else
    match self.readPayload header l.message with
    | (.error e, self, message) => return .ret (.error e) self message
    | (.ok (), self, message) => self.assemble header { l with length, message }

/-- One round of `receive`. -/
def receiveRound (self : Receiver) (l : Locals) : Fiber (List E) (Option Round) :=
  if self.isClosed then return some (.ret (.error .closed) self l.message)
  else
    match { self with ctrlBuffer := [] }.receiveHeader with
    | none => return none
    | some (.error e, self) => return some (.ret (.error e) self l.message)
    | some (.ok header, self) => do
      if header.opcode.isControl then return some (← self.controlFrame header l)
      else return some (← self.dataFrame header l)

/-- Rounds of `receive`. -/
def receiveLoop : ℕ → Receiver → Locals → Fiber (List E) (Option (Received Incoming))
  | 0, _, _ => return none
  | fuel + 1, self, l => do
    match ← self.receiveRound l with
    | none => return none
    | some (.ret result self message) => return some ⟨result, self, message⟩
    | some (.again self l) => receiveLoop fuel self l

/-- Receive the next websocket message. -/
def receive (self : Receiver) (message : List UInt8) :
    Fiber (List E) (Option (Received Incoming)) :=
  receiveLoop (self.remaining + 1) self (.start message)

/-- Rounds of `receiveData`. -/
def receiveDataLoop : ℕ → Receiver → List UInt8 → Fiber (List E) (Option (Received Data))
  | 0, _, _ => return none
  | fuel + 1, self, message => do
    match ← self.receive message with
    | none => return none
    | some ⟨.error e, self, message⟩ => return some ⟨.error e, self, message⟩
    | some ⟨.ok (.data d), self, message⟩ => return some ⟨.ok d, self, message⟩
    | some ⟨.ok _, self, message⟩ => receiveDataLoop fuel self message

/-- Receive the next websocket message, skipping over control frames. -/
def receiveData (self : Receiver) (message : List UInt8) :
    Fiber (List E) (Option (Received Data)) :=
  receiveDataLoop (self.remaining + 1) self message

end Fibers

end Receiver

end Soketto
