import Soketto.Connection.Send
import Soketto.Handshake

/-!
# Websocket server handshake

The model of `src/handshake/server.rs`.

* `Server.receiveRequest`: the loop that reads a request head; it is given as many rounds as there
  are bytes to come, plus one, and `none` is a loop that is not finished then.
* `Server.decodeRequest`, `Server.encodeResponse`: reading the request and writing the response.
-/

set_option autoImplicit false

namespace Soketto.Handshake

open Text

/-- Most HTTP servers default to 8KB limit on headers. -/
def maxHeadersSize : ℕ := 8 * 1024

def blockSize : ℕ := 8 * 1024

/-- Websocket handshake server. -/
structure Server (E : Type) where
  socket : Socket
  protocols : List String
  extensions : List E
  buffer : List UInt8

/-- Select HTTP headers sent by the client. -/
structure RequestHeaders where
  host : List UInt8
  origin : Option (List UInt8)
  deriving DecidableEq

/-- Handshake request received from the client. -/
structure ClientRequest where
  wsKey : WebSocketKey
  protocols : List String
  path : String
  headers : RequestHeaders
  deriving DecidableEq

/-- Handshake response the server sends back to the client. -/
inductive Response where
  | accept (key : WebSocketKey) (protocol : Option String)
  | reject (statusCode : UInt16)
  deriving DecidableEq

/-- The phrase of a status code, with the code. -/
def statusPhrase : ℕ → String
  | 100 => "100 Continue"
  | 101 => "101 Switching Protocols"
  | 102 => "102 Processing"
  | 200 => "200 OK"
  | 201 => "201 Created"
  | 202 => "202 Accepted"
  | 203 => "203 Non Authoritative Information"
  | 204 => "204 No Content"
  | 205 => "205 Reset Content"
  | 206 => "206 Partial Content"
  | 207 => "207 Multi-Status"
  | 208 => "208 Already Reported"
  | 226 => "226 IM Used"
  | 300 => "300 Multiple Choices"
  | 301 => "301 Moved Permanently"
  | 302 => "302 Found"
  | 303 => "303 See Other"
  | 304 => "304 Not Modified"
  | 305 => "305 Use Proxy"
  | 307 => "307 Temporary Redirect"
  | 308 => "308 Permanent Redirect"
  | 400 => "400 Bad Request"
  | 401 => "401 Unauthorized"
  | 402 => "402 Payment Required"
  | 403 => "403 Forbidden"
  | 404 => "404 Not Found"
  | 405 => "405 Method Not Allowed"
  | 406 => "406 Not Acceptable"
  | 407 => "407 Proxy Authentication Required"
  | 408 => "408 Request Timeout"
  | 409 => "409 Conflict"
  | 410 => "410 Gone"
  | 411 => "411 Length Required"
  | 412 => "412 Precondition Failed"
  | 413 => "413 Payload Too Large"
  | 414 => "414 URI Too Long"
  | 415 => "415 Unsupported Media Type"
  | 416 => "416 Range Not Satisfiable"
  | 417 => "417 Expectation Failed"
  | 418 => "418 I'm a teapot"
  | 421 => "421 Misdirected Request"
  | 422 => "422 Unprocessable Entity"
  | 423 => "423 Locked"
  | 424 => "424 Failed Dependency"
  | 426 => "426 Upgrade Required"
  | 428 => "428 Precondition Required"
  | 429 => "429 Too Many Requests"
  | 431 => "431 Request Header Fields Too Large"
  | 451 => "451 Unavailable For Legal Reasons"
  | 501 => "501 Not Implemented"
  | 502 => "502 Bad Gateway"
  | 503 => "503 Service Unavailable"
  | 504 => "504 Gateway Timeout"
  | 505 => "505 HTTP Version Not Supported"
  | 506 => "506 Variant Also Negotiates"
  | 507 => "507 Insufficient Storage"
  | 508 => "508 Loop Detected"
  | 510 => "510 Not Extended"
  | 511 => "511 Network Authentication Required"
  | _ => "500 Internal Server Error"

/-- The end of a request head. -/
def headersTail : List UInt8 := utf8 "\r\n\r\n"

/-- Some four bytes in a row are the end of a request head. -/
def containsTail : List UInt8 → Bool
  | [] => false
  | b :: bs => headersTail.isPrefixOf (b :: bs) || containsTail bs

namespace Server

variable {E : Type}

/-- Create a new server handshake. -/
def new (socket : Socket) : Server E := ⟨socket, [], [], []⟩

/-- Override the buffer to use for request/response handling. -/
def setBuffer (self : Server E) (b : List UInt8) : Server E := { self with buffer := b }

/-- Add a protocol the server supports. -/
def addProtocol (self : Server E) (p : String) : Server E :=
  { self with protocols := self.protocols ++ [p] }

/-- Add an extension the server supports. -/
def addExtension (self : Server E) (e : E) : Server E :=
  { self with extensions := self.extensions ++ [e] }

section Decode

variable [Extension E]

/-- The protocols of the server that are named by the `Sec-WebSocket-Protocol` headers. -/
def selectProtocols (protocols : List String) (headers : List Http.Header) : List String :=
  (headers.filter fun h => eqIgnoreAsciiCase h.name secWebSocketProtocol).filterMap fun h =>
    protocols.find? fun x => utf8 x == h.value

/-- Check a parsed request; the extensions are configured on the way. -/
def checkRequest (self : Server E) (request : Http.Request) :
    Except Error ClientRequest × Server E :=
  let checked : Except Error (WebSocketKey × RequestHeaders) := do
    if request.method ≠ some "GET" then throw .invalidRequestMethod
    if request.version ≠ some 1 then throw .unsupportedHttpVersion
    let host ← withFirstHeader request.headers "Host" .ok
    expectAsciiHeader request.headers "Upgrade" "websocket"
    expectAsciiHeader request.headers "Connection" "upgrade"
    expectAsciiHeader request.headers "Sec-WebSocket-Version" "13"
    let origin := (request.headers.find? fun h => eqIgnoreAsciiCase h.name "Origin").map (·.value)
    let wsKey ← withFirstHeader request.headers "Sec-WebSocket-Key" fun k =>
      match WebSocketKey.tryFrom k with
      | some key => .ok key
      | none => .error (.secWebSocketKeyInvalidLength k.length)
    return (wsKey, ⟨host, origin⟩)
  match checked with
  | .error e => (.error e, self)
  | .ok (wsKey, headers) =>
    match configureHeaders self.extensions request.headers with
    | (.error e, extensions) => (.error e, { self with extensions })
    | (.ok (), extensions) =>
      (.ok ⟨wsKey, selectProtocols self.protocols request.headers, request.path.getD "/", headers⟩,
        { self with extensions })

/-- Decode client handshake request. -/
def decodeRequest (http : Http.Parser) (self : Server E) : Except Error ClientRequest × Server E :=
  match http.request self.buffer with
  | .error e => (.error (.http e), self)
  | .ok .needMore => (.error .incompleteHttpRequest, self)
  | .ok (.complete request _) => self.checkRequest request

/-- The rounds that read a request head. -/
def readHead : ℕ → ℕ → Server E → Option (Except Error Unit × Server E)
  | 0, _, _ => none
  | fuel + 1, skip, self =>
    match Soketto.read self.socket.reader self.buffer blockSize with
    | (.error e, reader, buffer) =>
      some (.error (.io e), { self with socket := { self.socket with reader }, buffer })
    | (.ok (), reader, buffer) =>
      let self := { self with socket := { self.socket with reader }, buffer }
      let limit := min buffer.length maxHeadersSize
      if containsTail ((buffer.take limit).drop skip) then some (.ok (), self)
      else if limit = maxHeadersSize then some (.ok (), self)
      else readHead fuel (buffer.length - 4) self

/-- Await an incoming client handshake request. -/
def receiveRequest (http : Http.Parser) (self : Server E) :
    Option (Except Error ClientRequest × Server E) :=
  match readHead ((Chunked.bytes self.socket.reader).length + 1) 0 { self with buffer := [] } with
  | none => none
  | some (.error e, self) => some (.error e, self)
  | some (.ok (), self) => some (self.decodeRequest http)

/-- What is written to the client. -/
def encodeResponse (sha1 : List UInt8 → Vector UInt8 20) (self : Server E) : Response → List UInt8
  | .accept key protocol =>
    utf8 "HTTP/1.1 101 Switching Protocols" ++ utf8 "\r\nServer: soketto-0.8.1" ++
      utf8 "\r\nUpgrade: websocket" ++ utf8 "\r\nConnection: upgrade" ++
      utf8 "\r\nSec-WebSocket-Accept: " ++ (generateAcceptKey sha1 key).toList ++
      (protocol.elim [] fun p => utf8 "\r\nSec-WebSocket-Protocol: " ++ utf8 p) ++
      appendExtensions (self.extensions.filter Extension.isEnabled) ++ utf8 "\r\n\r\n"
  | .reject statusCode =>
    utf8 "HTTP/1.1 " ++ utf8 (statusPhrase statusCode.toNat) ++ utf8 "\r\n\r\n"

/-- Respond to the client. -/
def sendResponse (sha1 : List UInt8 → Vector UInt8 20) (self : Server E) (r : Response) :
    Except Error Unit × Server E :=
  let response := self.encodeResponse sha1 r
  match self.socket.writeAll response with
  | (.error e, socket) => (.error (.io e), { self with socket, buffer := response })
  | (.ok (), socket) =>
    match socket.flush with
    | (.error e, socket) => (.error (.io e), { self with socket, buffer := response })
    | (.ok (), socket) => (.ok (), { self with socket, buffer := [] })

/-- Turn this handshake into a connection builder. -/
def intoBuilder (self : Server E) : Builder E :=
  ((Builder.new self.socket.reader .server).setBuffer self.buffer).addExtensions self.extensions

end Decode

end Server

end Soketto.Handshake
