import Soketto.Connection

/-!
# Sending messages, and building a connection

The model of `Sender` and `Builder`.

* `Sender.sendText`, …, `Sender.close`: the operations; an operation is `none` when an extension's
  `encode` does not return.
* `Op`, `Sender.perform`, `Sender.performAll`: operations as data, and runs of them.
* `Builder.finish`: the two halves of a connection.
-/

set_option autoImplicit false

namespace Soketto

open BigEndian
open Chunked (Source)

/-- What an operation leaves: its result and the sender. -/
structure Sent where
  result : Except Error Unit
  sender : Sender

namespace Sender

section Fibers

variable {E : Type}

/-- Write final header and payload data to socket. -/
def write (self : Sender) (header : Header) (data : Storage) : Fiber (List E) Sent := do
  let w ← Soketto.write self.mode self.codec header data self.maskBuffer
  return ⟨w.result, { self with codec := w.codec, maskBuffer := w.maskBuffer }⟩

/-- Ping the remote end. -/
def sendPing (self : Sender) (data : ByteSlice125) : Fiber (List E) Sent :=
  self.write (Header.new .ping) (.shared data.bytes)

/-- Send an unsolicited Pong to the remote. -/
def sendPong (self : Sender) (data : ByteSlice125) : Fiber (List E) Sent :=
  self.write (Header.new .pong) (.shared data.bytes)

/-- Flush the socket buffer. -/
def flush : Fiber (List E) (Except Error Unit) := flushWriter

/-- Send a close message and close the connection. -/
def close (self : Sender) : Fiber (List E) Sent := do
  let code := beBytes 2 1000
  match ← self.write (Header.new .close) (.shared code) with
  | ⟨.error e, self⟩ => return ⟨.error e, self⟩
  | ⟨.ok (), self⟩ =>
    match ← flush with
    | .error e => return ⟨.error e, self⟩
    | .ok () => return ⟨← closeWriter, self⟩

variable [Extension E]

/-- Send arbitrary websocket frames. -/
def sendFrame (self : Sender) (header : Header) (data : Storage) :
    Fiber (List E) (Option Sent) := do
  if !self.hasExtensions then return some (← self.write header data)
  else
    let encoded ← Fiber.locked fun es =>
      match Extension.encodeAll es header data with
      | none => (none, es)
      | some d => (some (d.result, d.header, d.data), d.ext)
    match encoded with
    | none => return none
    | some (.error e, _, _) => return some ⟨.error (.extension e), self⟩
    | some (.ok (), header, data) => return some (← self.write header data)

/-- Send a text value over the websocket connection. -/
def sendText (self : Sender) (data : String) : Fiber (List E) (Option Sent) :=
  self.sendFrame (Header.new .text) (.shared data.toUTF8.toList)

/-- Send a text value over the websocket connection, with one copy fewer. -/
def sendTextOwned (self : Sender) (data : String) : Fiber (List E) (Option Sent) :=
  self.sendFrame (Header.new .text) (.owned data.toUTF8.toList)

/-- Send some binary data over the websocket connection. -/
def sendBinary (self : Sender) (data : List UInt8) : Fiber (List E) (Option Sent) :=
  self.sendFrame (Header.new .binary) (.shared data)

/-- Send some binary data over the websocket connection, with one copy fewer. -/
def sendBinaryMut (self : Sender) (data : List UInt8) : Fiber (List E) (Option Sent) :=
  self.sendFrame (Header.new .binary) (.unique data)

end Fibers

end Sender

/-! ## Runs of operations -/

/-- The operations of a sender. -/
inductive Op where
  | sendText (data : String)
  | sendTextOwned (data : String)
  | sendBinary (data : List UInt8)
  | sendBinaryMut (data : List UInt8)
  | sendPing (data : ByteSlice125)
  | sendPong (data : ByteSlice125)
  | flush
  | close
  deriving DecidableEq

namespace Sender

variable {E : Type} [Extension E]

/-- One operation. -/
def perform (self : Sender) : Op → Fiber (List E) (Option Sent)
  | .sendText data => self.sendText data
  | .sendTextOwned data => self.sendTextOwned data
  | .sendBinary data => self.sendBinary data
  | .sendBinaryMut data => self.sendBinaryMut data
  | .sendPing data => do return some (← self.sendPing data)
  | .sendPong data => do return some (← self.sendPong data)
  | .flush => do return some ⟨← flush, self⟩
  | .close => do return some (← self.close)

/-- Operations one after the other, whatever their results: all results, and the sender. -/
def performAll (self : Sender) : List Op → Fiber (List E) (Option (List (Except Error Unit) × Sender))
  | [] => return some ([], self)
  | op :: ops => do
    match ← self.perform op with
    | none => return none
    | some ⟨result, self⟩ =>
      match ← self.performAll ops with
      | none => return none
      | some (results, self) => return some (result :: results, self)

end Sender

/-! ## Building a connection -/

/-- Accumulated max. size of a complete message. -/
def maxMessageSize : UInt64 := 256 * 1024 * 1024

/-- Max. size of a single message frame. -/
def maxFrameSize : UInt64 := maxMessageSize

/-- A connection builder. Of the socket it holds what will be read from it. -/
structure Builder (E : Type) where
  mode : Mode
  socket : Source UInt8
  codec : Codec
  extensions : List E
  buffer : List UInt8
  maxMessageSize : UInt64

namespace Builder

variable {E : Type}

/-- Create a new `Builder` from the given async I/O resource and mode. -/
def new (socket : Source UInt8) (mode : Mode) : Builder E where
  mode := mode
  socket := socket
  codec := Codec.new.setMaxDataSize maxFrameSize
  extensions := []
  buffer := []
  maxMessageSize := Soketto.maxMessageSize

/-- Set a custom buffer to use. -/
def setBuffer (self : Builder E) (b : List UInt8) : Builder E := { self with buffer := b }

/-- Add an extension to use with this connection, if it is enabled. -/
def addExtension [Extension E] (self : Builder E) (e : E) : Builder E :=
  if Extension.isEnabled e then
    { self with
      codec := self.codec.addReservedBits (Extension.reservedBits e)
      extensions := self.extensions ++ [e] }
  else self

/-- Add extensions to use with this connection. -/
def addExtensions [Extension E] (self : Builder E) (extensions : List E) : Builder E :=
  extensions.foldl addExtension self

/-- Set the maximum size of a complete message. -/
def setMaxMessageSize (self : Builder E) (max : UInt64) : Builder E :=
  { self with maxMessageSize := max }

/-- Set the maximum size of a single websocket frame payload. -/
def setMaxFrameSize (self : Builder E) (max : UInt64) : Builder E :=
  { self with codec := self.codec.setMaxDataSize max }

/-- Create a configured `Sender`/`Receiver` pair, and the extensions they share. -/
def finish (self : Builder E) : Sender × Receiver × List E :=
  ({ mode := self.mode
     codec := self.codec
     maskBuffer := []
     hasExtensions := !self.extensions.isEmpty },
   { mode := self.mode
     codec := self.codec
     reader := self.socket
     hasExtensions := !self.extensions.isEmpty
     buffer := self.buffer
     ctrlBuffer := []
     maxMessageSize := self.maxMessageSize
     isClosed := false },
   self.extensions)

/-- The world of a new connection, with an open writer that never fails. -/
def world (self : Builder E) (randoms : List UInt32) : World (List E) where
  wire := []
  closed := false
  outcomes := []
  shared := self.extensions
  randoms := randoms

end Builder

end Soketto
