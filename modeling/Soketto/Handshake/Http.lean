import Soketto.Handshake.Server

/-!
# Websocket server handshake on HTTP requests

The model of `src/handshake/http.rs`, which is given requests that were parsed before. Which bytes are
a header value to the library of HTTP types is a parameter.

* `HeaderMap`: looking for values; `headerContainsValue`, `isUpgradeRequest`.
* `HttpServer.receiveRequest`: checking a request and building the response; `none` is a response that
  cannot be built.
-/

set_option autoImplicit false

namespace Soketto.Handshake

open Text

/-! ## Headers -/

/-- Headers; names are compared without regard to case. -/
abbrev HeaderMap : Type := List Http.Header

/-- The first value of a name. -/
def HeaderMap.get (headers : HeaderMap) (name : String) : Option (List UInt8) :=
  (headers.find? fun h => eqIgnoreAsciiCase h.name name).map (·.value)

/-- All values of a name. -/
def HeaderMap.getAll (headers : HeaderMap) (name : String) : List (List UInt8) :=
  (headers.filter fun h => eqIgnoreAsciiCase h.name name).map (·.value)

/-- Space, tab, line feed, form feed and carriage return. -/
def isAsciiWhitespace (b : UInt8) : Bool := b == 32 || b == 9 || b == 10 || b == 12 || b == 13

/-- Capital letters of ASCII become small. -/
def toAsciiLowercase (b : UInt8) : UInt8 := if 65 ≤ b ∧ b ≤ 90 then b + 32 else b

/-- Check if there is a header of the given name containing the wanted value. -/
def headerContainsValue (headers : HeaderMap) (name : String) (value : List UInt8) : Bool :=
  (HeaderMap.getAll headers name).any fun v => (v.splitOn 44).any fun x =>
    (trimMatches isAsciiWhitespace x).map toAsciiLowercase == value.map toAsciiLowercase

/-- Check if a request looks like a valid websocket upgrade request. -/
def isUpgradeRequest (headers : HeaderMap) : Bool :=
  headerContainsValue headers "connection" (utf8 "upgrade") &&
    headerContainsValue headers "upgrade" (utf8 "websocket")

/-! ## The server -/

/-- Websocket handshake server that is given requests. -/
structure HttpServer (E : Type) where
  extensions : List E
  buffer : List UInt8

/-- The response to a request. -/
structure HttpResponse where
  status : UInt16
  headers : HeaderMap
  deriving DecidableEq

namespace HttpServer

variable {E : Type}

/-- Create a new server handshake. -/
def new : HttpServer E := ⟨[], []⟩

/-- Override the buffer to use for request/response handling. -/
def setBuffer (self : HttpServer E) (b : List UInt8) : HttpServer E := { self with buffer := b }

/-- Add an extension the server supports. -/
def addExtension (self : HttpServer E) (e : E) : HttpServer E :=
  { self with extensions := self.extensions ++ [e] }

/-- The key of an upgrade request. -/
def upgradeKey (headers : HeaderMap) : Except Error WebSocketKey :=
  if isUpgradeRequest headers = false then .error .invalidSecWebSocketAccept
  else
    match HeaderMap.get headers "Sec-WebSocket-Key" with
    | none => .error (.headerNotFound "Sec-WebSocket-Key")
    | some key =>
      if HeaderMap.get headers "Sec-WebSocket-Version" ≠ some (utf8 "13") then
        .error (.headerNotFound "Sec-WebSocket-Version")
      else
        match WebSocketKey.tryFrom key with
        | none => .error .invalidSecWebSocketAccept
        | some key => .ok key

/-- These values, if all of them are texts. -/
def extensionConfig : List (List UInt8) → Except Error (List String)
  | [] => .ok []
  | v :: vs =>
    match fromUtf8 v with
    | none => .error (.utf8 v)
    | some line => (extensionConfig vs).map (line :: ·)

section Receive

variable [Extension E]

/-- Configure all extensions with one text after the other. -/
def configureAll : List E → List String → Except Error Unit × List E
  | es, [] => (.ok (), es)
  | es, line :: lines =>
    match configureExtensions es line with
    | (.error x, es) => (.error x, es)
    | (.ok (), es) => configureAll es lines

/-- The headers of the response. -/
def responseHeaders (sha1 : List UInt8 → Vector UInt8 20) (key : WebSocketKey) (es : List E) :
    HeaderMap :=
  ⟨"connection", utf8 "upgrade"⟩ :: ⟨"upgrade", utf8 "websocket"⟩ ::
    ⟨"Sec-WebSocket-Accept", (generateAcceptKey sha1 key).toList⟩ ::
      if es.isEmpty then []
      else [⟨secWebSocketExtensions, appendExtensionHeaderValue (es.filter Extension.isEnabled)⟩]

/-- Attempt to interpret the request as a WebSocket upgrade request. -/
def receiveRequest (sha1 : List UInt8 → Vector UInt8 20) (isHeaderValue : List UInt8 → Bool)
    (self : HttpServer E) (request : Http.Request) :
    Option (Except Error HttpResponse × HttpServer E) :=
  match upgradeKey request.headers with
  | .error e => some (.error e, self)
  | .ok key =>
    match extensionConfig (HeaderMap.getAll request.headers secWebSocketExtensions) with
    | .error e => some (.error e, self)
    | .ok config =>
      match configureAll self.extensions config with
      | (.error e, extensions) => some (.error e, { self with extensions })
      | (.ok (), extensions) =>
        let headers := responseHeaders sha1 key extensions
        if headers.all fun h => isHeaderValue h.value then
          some (.ok ⟨101, headers⟩, { self with extensions })
        else none

/-- Turn this handshake into a connection builder. -/
def intoBuilder (self : HttpServer E) (socket : Chunked.Source UInt8) : Builder E :=
  ((Builder.new socket .server).setBuffer self.buffer).addExtensions self.extensions

end Receive

end HttpServer

end Soketto.Handshake
