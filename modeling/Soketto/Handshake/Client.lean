import Soketto.Connection.Send
import Soketto.Handshake

/-!
# Websocket client handshake

The model of `src/handshake/client.rs`.

* `Client.encodeRequest`, `Client.decodeResponse`: writing the request and reading the response.
* `Client.handshake`: both, with the loop that reads the response head; the nonce is random. The
  loop is given as many rounds as there are bytes to come, plus one, and `none` is a loop that is
  not finished then.
-/

set_option autoImplicit false

namespace Soketto.Handshake

open Text

/-- Handshake response received from the server. -/
inductive ServerResponse where
  | accepted (protocol : Option String)
  | redirect (statusCode : UInt16) (location : String)
  | rejected (statusCode : UInt16)
  deriving DecidableEq

/-- The result of `decodeResponse`. -/
inductive Parsing where
  | done (value : ServerResponse) (offset : ℕ)
  | needMore
  deriving DecidableEq

/-- Websocket client handshake. -/
structure Client (E : Type) where
  socket : Socket
  host : String
  resource : String
  headers : List Http.Header
  nonce : WebSocketKey
  protocols : List String
  extensions : List E
  buffer : List UInt8

namespace Client

variable {E : Type}

/-- Create a new client handshake for some host and resource. -/
def new (socket : Socket) (host resource : String) : Client E where
  socket := socket
  host := host
  resource := resource
  headers := []
  nonce := Vector.replicate 24 0
  protocols := []
  extensions := []
  buffer := []

/-- Override the buffer to use for request/response handling. -/
def setBuffer (self : Client E) (b : List UInt8) : Client E := { self with buffer := b }

/-- Add a protocol to be included in the handshake. -/
def addProtocol (self : Client E) (p : String) : Client E :=
  { self with protocols := self.protocols ++ [p] }

/-- Add an extension to be included in the handshake. -/
def addExtension (self : Client E) (e : E) : Client E :=
  { self with extensions := self.extensions ++ [e] }

/-- The client's own headers as they are written. -/
def headersBytes (headers : List Http.Header) : List UInt8 :=
  headers.flatMap fun h => utf8 "\r\n" ++ utf8 h.name ++ utf8 ": " ++ h.value

/-- The protocols with a comma between them. -/
def joinProtocols : List String → List UInt8
  | [] => []
  | [p] => utf8 p
  | p :: ps => utf8 p ++ utf8 "," ++ joinProtocols ps

section

variable [Extension E]

/-- Encode the client handshake as a request, ready to be sent to the server. -/
def encodeRequest (self : Client E) (nonce : Vector UInt8 16) : Client E :=
  let key := WebSocketKey.ofNonce nonce
  { self with
    nonce := key
    buffer := self.buffer ++ utf8 "GET " ++ utf8 self.resource ++ utf8 " HTTP/1.1" ++
      utf8 "\r\nHost: " ++ utf8 self.host ++ utf8 "\r\nUpgrade: websocket\r\nConnection: Upgrade" ++
      utf8 "\r\nSec-WebSocket-Key: " ++ key.toList ++ headersBytes self.headers ++
      (if self.protocols.isEmpty then []
        else utf8 "\r\nSec-WebSocket-Protocol: " ++ joinProtocols self.protocols) ++
      appendExtensions self.extensions ++ utf8 "\r\nSec-WebSocket-Version: 13\r\n\r\n" }

/-- The codes of redirections. -/
def isRedirect (code : UInt16) : Bool :=
  (301 ≤ code && code ≤ 303) || code == 307 || code == 308

/-- Check the headers of a response that accepts the handshake; the extensions are configured on
the way. -/
def checkAccepted (sha1 : List UInt8 → Vector UInt8 20) (self : Client E)
    (headers : List Http.Header) : Except Error (Option String) × Client E :=
  let checked : Except Error Unit := do
    expectAsciiHeader headers "Upgrade" "websocket"
    expectAsciiHeader headers "Connection" "upgrade"
    withFirstHeader headers "Sec-WebSocket-Accept" fun theirs =>
      let ours := base64 (sha1 (self.nonce.toList ++ KEY)).toList
      if ours ≠ theirs then .error .invalidSecWebSocketAccept else .ok ()
  match checked with
  | .error e => (.error e, self)
  | .ok () =>
    match configureHeaders self.extensions headers with
    | (.error e, extensions) => (.error e, { self with extensions })
    | (.ok (), extensions) =>
      let self := { self with extensions }
      match headers.find? fun h => eqIgnoreAsciiCase h.name secWebSocketProtocol with
      | none => (.ok none, self)
      | some tp =>
        match self.protocols.find? fun x => utf8 x == tp.value with
        | some p => (.ok (some p), self)
        | none => (.error .unsolicitedProtocol, self)

/-- Decode the server response to this client request. -/
def decodeResponse (http : Http.Parser) (sha1 : List UInt8 → Vector UInt8 20) (self : Client E) :
    Except Error Parsing × Client E :=
  match http.response self.buffer with
  | .error e => (.error (.http e), self)
  | .ok .needMore => (.ok .needMore, self)
  | .ok (.complete response offset) =>
    if response.version ≠ some 1 then (.error .unsupportedHttpVersion, self)
    else if response.code = some 101 then
      match self.checkAccepted sha1 response.headers with
      | (.error e, self) => (.error e, self)
      | (.ok protocol, self) => (.ok (.done (.accepted protocol) offset), self)
    else
      let code := response.code.getD 0
      if isRedirect code then
        let location := withFirstHeader response.headers "Location" fun loc =>
          match fromUtf8 loc with
          | some l => .ok l
          | none => .error (.utf8 loc)
        (location.map fun l => .done (.redirect code l) offset, self)
      else (.ok (.done (.rejected code) offset), self)

/-- The rounds that read a response. -/
def readResponse (http : Http.Parser) (sha1 : List UInt8 → Vector UInt8 20) :
    ℕ → Client E → Option (Except Error ServerResponse × Client E)
  | 0, _ => none
  | fuel + 1, self =>
    match Soketto.read self.socket.reader self.buffer (8 * 1024) with
    | (.error e, reader, buffer) =>
      some (.error (.io e), { self with socket := { self.socket with reader }, buffer })
    | (.ok (), reader, buffer) =>
      match { self with socket := { self.socket with reader }, buffer }.decodeResponse http sha1 with
      | (.error e, self) => some (.error e, self)
      | (.ok (.done value offset), self) =>
        some (.ok value, { self with buffer := self.buffer.drop offset })
      | (.ok .needMore, self) => readResponse http sha1 fuel self

/-- Initiate client handshake request to server and get back the response. -/
def handshake (http : Http.Parser) (sha1 : List UInt8 → Vector UInt8 20) (self : Client E)
    (nonce : Vector UInt8 16) : Option (Except Error ServerResponse × Client E) :=
  let self := { self with buffer := [] }.encodeRequest nonce
  match self.socket.writeAll self.buffer with
  | (.error e, socket) => some (.error (.io e), { self with socket })
  | (.ok (), socket) =>
    match socket.flush with
    | (.error e, socket) => some (.error (.io e), { self with socket })
    | (.ok (), socket) =>
      readResponse http sha1 ((Chunked.bytes socket.reader).length + 1)
        { self with socket, buffer := [] }

/-- Turn this handshake into a connection builder. -/
def intoBuilder (self : Client E) : Builder E :=
  ((Builder.new self.socket.reader .client).setBuffer self.buffer).addExtensions self.extensions

end

end Client

end Soketto.Handshake
