import Soketto.Connection
import Soketto.Lib.Text

/-!
# Websocket handshakes

The model of `src/handshake.rs`: what the handshakes of client and server have in common. The HTTP
parser and SHA-1 are parameters.

* `Http.Parser`: what is used of the HTTP parser, which is given room for `maxNumHeaders` headers.
* `expectAsciiHeader`, `withFirstHeader`: looking for headers.
* `configureExtensions`, `appendExtensions`: reading and writing `Sec-WebSocket-Extensions`.
* `base64`, `generateAcceptKey`: the value of `Sec-WebSocket-Accept`.
* `Socket`: what is read, what was written and how the next writes end.
-/

set_option autoImplicit false

namespace Soketto

open Chunked (IoError Source)
open Text

/-! ## HTTP -/

namespace Http

/-- A parsed header. -/
structure Header where
  name : String
  value : List UInt8
  deriving DecidableEq

/-- A parsed request. -/
structure Request where
  method : Option String
  path : Option String
  version : Option UInt8
  headers : List Header
  deriving DecidableEq

/-- A parsed response. -/
structure Response where
  version : Option UInt8
  code : Option UInt16
  headers : List Header
  deriving DecidableEq

/-- The result of a parse: it needs more bytes, or the value ends at the offset. -/
inductive Status (α : Type) where
  | needMore
  | complete (value : α) (offset : ℕ)
  deriving DecidableEq

/-- The parser of requests and responses. -/
structure Parser where
  request : List UInt8 → Except BoxedError (Status Request)
  response : List UInt8 → Except BoxedError (Status Response)

end Http

namespace Handshake

/-- How many HTTP headers do we support during parsing? -/
def maxNumHeaders : ℕ := 32

def secWebSocketExtensions : String := "Sec-WebSocket-Extensions"
def secWebSocketProtocol : String := "Sec-WebSocket-Protocol"

/-- Possible handshake errors. The UTF-8 error is a function of the bytes that were checked. -/
inductive Error where
  | io (e : IoError)
  | unsupportedHttpVersion
  | incompleteHttpRequest
  | secWebSocketKeyInvalidLength (len : ℕ)
  | invalidRequestMethod
  | headerNotFound (name : String)
  | unexpectedHeader (name : String)
  | invalidSecWebSocketAccept
  | unsolicitedExtension
  | unsolicitedProtocol
  | extension (e : BoxedError)
  | http (e : BoxedError)
  | utf8 (bytes : List UInt8)
  deriving DecidableEq, Repr

/-! ## Texts -/

/-- The characters with the property White_Space. -/
def isWhitespace (c : Char) : Bool :=
  let n := c.toNat
  (9 ≤ n && n ≤ 13) || n == 0x20 || n == 0x85 || n == 0xA0 || n == 0x1680 ||
    (0x2000 ≤ n && n ≤ 0x200A) || n == 0x2028 || n == 0x2029 || n == 0x202F || n == 0x205F ||
    n == 0x3000

/-- Without leading and trailing whitespace. -/
def trim (cs : List Char) : List Char := trimMatches isWhitespace cs

/-- The same text, but for the case of ASCII letters. -/
def eqIgnoreAsciiCase (a b : String) : Bool :=
  a.toList.map Char.toLower == b.toList.map Char.toLower

/-! ## Looking for headers -/

/-- Some of the values that are separated by commas is `ours`. -/
def hasToken (text ours : String) : Bool :=
  (text.toList.splitOn ',').any fun v => eqIgnoreAsciiCase (.ofList (trim v)) ours

/-- How far `expectAsciiHeader` has come. -/
inductive State where
  | init
  | name
  | found
  deriving DecidableEq

/-- One header of the given name. A value that is no text is forgotten when another one follows. -/
def expectStep (ours : String) (result : Except Error State) (header : Http.Header) :
    Except Error State :=
  if result = .ok .found then result
  else
    match fromUtf8 header.value with
    | none => .error (.utf8 header.value)
    | some text => if hasToken text ours then .ok .found else .ok .name

/-- Check a set of headers contains a specific one. -/
def expectAsciiHeader (headers : List Http.Header) (name ours : String) : Except Error Unit :=
  match (headers.filter fun h => eqIgnoreAsciiCase h.name name).foldl (expectStep ours)
      (.ok .init) with
  | .error e => .error e
  | .ok .init => .error (.headerNotFound name)
  | .ok .name => .error (.unexpectedHeader name)
  | .ok .found => .ok ()

/-- Pick the first header with the given name and apply the given function to it. -/
def withFirstHeader {α : Type} (headers : List Http.Header) (name : String)
    (f : List UInt8 → Except Error α) : Except Error α :=
  match headers.find? fun h => eqIgnoreAsciiCase h.name name with
  | some h => f h.value
  | none => .error (.headerNotFound name)

/-! ## Extensions -/

/-- A parameter: its name and what follows the first equals sign, up to the second. -/
def parseParam (p : List Char) : Param :=
  let keyValue := p.splitOn '='
  (Param.new (.ofList (trim (keyValue.headD [])))).setValue
    (keyValue.tail.head?.map fun v => .ofList (trimMatches (· == '"') (trim v)))

/-- A name of an extension and its parameters. -/
structure Offer where
  name : String
  params : List Param
  deriving DecidableEq

/-- What stands between two commas. -/
def parseOffer (e : List Char) : Offer :=
  let extParts := e.splitOn ';'
  ⟨.ofList (trim (extParts.headD [])), extParts.tail.map parseParam⟩

/-- The offers of a header value. -/
def parseOffers (line : String) : List Offer := (line.toList.splitOn ',').map parseOffer

section Extensions

variable {E : Type} [Extension E]

/-- Configure the first extension with the name of the offer, if there is one. -/
def configureFirst (offer : Offer) : List E → Except BoxedError Unit × List E
  | [] => (.ok (), [])
  | e :: es =>
    if eqIgnoreAsciiCase (Extension.name e) offer.name then
      let (result, e) := Extension.configure e offer.params
      (result, e :: es)
    else
      let (result, es) := configureFirst offer es
      (result, e :: es)

/-- Configure extensions with one offer after the other. -/
def configureOffers : List E → List Offer → Except Error Unit × List E
  | es, [] => (.ok (), es)
  | es, offer :: offers =>
    match configureFirst offer es with
    | (.error x, es) => (.error (.extension x), es)
    | (.ok (), es) => configureOffers es offers

/-- Configure all extensions with parsed parameters. -/
def configureExtensions (es : List E) (line : String) : Except Error Unit × List E :=
  configureOffers es (parseOffers line)

/-- Configure all extensions with the values of the `Sec-WebSocket-Extensions` headers. -/
def configureHeaders : List E → List Http.Header → Except Error Unit × List E
  | es, [] => (.ok (), es)
  | es, h :: hs =>
    if eqIgnoreAsciiCase h.name secWebSocketExtensions then
      match fromUtf8 h.value with
      | none => (.error (.utf8 h.value), es)
      | some line =>
        match configureExtensions es line with
        | (.error x, es) => (.error x, es)
        | (.ok (), es) => configureHeaders es hs
    else configureHeaders es hs

/-- A parameter as it is written. -/
def paramBytes (p : Param) : List UInt8 :=
  utf8 "; " ++ utf8 p.name ++ (p.value.elim [] fun v => utf8 "=" ++ utf8 v)

/-- An extension and its parameters as they are written. -/
def extensionBytes (e : E) : List UInt8 :=
  utf8 (Extension.name e) ++ (Extension.params e).flatMap paramBytes

/-- Write the extension header value. -/
def appendExtensionHeaderValue : List E → List UInt8
  | [] => []
  | [e] => extensionBytes e
  | e :: es => extensionBytes e ++ utf8 ", " ++ appendExtensionHeaderValue es

/-- Write all extensions. -/
def appendExtensions (es : List E) : List UInt8 :=
  if es.isEmpty then []
  else utf8 "\r\nSec-WebSocket-Extensions: " ++ appendExtensionHeaderValue es

end Extensions

/-! ## Keys -/

/-- The characters of base64. -/
def base64Char (n : ℕ) : UInt8 :=
  if n < 26 then UInt8.ofNat (65 + n)
  else if n < 52 then UInt8.ofNat (97 + (n - 26))
  else if n < 62 then UInt8.ofNat (48 + (n - 52))
  else if n = 62 then 43
  else 47

/-- The standard encoding with padding. -/
def base64 : List UInt8 → List UInt8
  | [] => []
  | [a] =>
    let n := a.toNat
    [base64Char (n / 4), base64Char (n % 4 * 16), 61, 61]
  | [a, b] =>
    let n := a.toNat * 256 + b.toNat
    [base64Char (n / 1024), base64Char (n / 16 % 64), base64Char (n % 16 * 4), 61]
  | a :: b :: c :: bs =>
    let n := a.toNat * 65536 + b.toNat * 256 + c.toNat
    base64Char (n / 262144) :: base64Char (n / 4096 % 64) :: base64Char (n / 64 % 64) ::
      base64Char (n % 64) :: base64 bs

theorem length_base64 (bs : List UInt8) : (base64 bs).length = 4 * ((bs.length + 2) / 3) := by
  induction bs using base64.induct with
  | case1 => rfl
  | case2 a => simp [base64]
  | case3 a b => simp [base64]
  | case4 a b c bs ih =>
    simp only [base64, List.length_cons, ih]
    omega

/-- The value of the `Sec-WebSocket-Key` header. -/
abbrev WebSocketKey : Type := Vector UInt8 24

/-- The bytes as a key, if there are as many as a key has. -/
def WebSocketKey.tryFrom (bs : List UInt8) : Option WebSocketKey :=
  if h : bs.length = 24 then some ⟨bs.toArray, by simpa using h⟩ else none

/-- The base64 encoding of a nonce. -/
def WebSocketKey.ofNonce (nonce : Vector UInt8 16) : WebSocketKey :=
  ⟨(base64 nonce.toList).toArray, by simp [length_base64]⟩

/-- What the key is hashed with. -/
def KEY : List UInt8 := utf8 "258EAFA5-E914-47DA-95CA-C5AB0DC85B11"

/-- The value of the `Sec-WebSocket-Accept` header for a key. -/
def generateAcceptKey (sha1 : List UInt8 → Vector UInt8 20) (key : WebSocketKey) :
    Vector UInt8 28 :=
  ⟨(base64 (sha1 (key.toList ++ KEY)).toList).toArray, by simp [length_base64]⟩

/-! ## The socket -/

/-- The I/O resource of a handshake. `outcomes` tells how the next writes and flushes end: `none` is
success, `some (k, e)` the failure `e` after `k` bytes; beyond its end all of them succeed. -/
structure Socket where
  reader : Source UInt8
  wire : List UInt8
  outcomes : List (Option (ℕ × IoError))
  deriving DecidableEq

namespace Socket

/-- Write all of `bs`. -/
def writeAll (self : Socket) (bs : List UInt8) : Except IoError Unit × Socket :=
  match self.outcomes with
  | some (k, e) :: os => (.error e, { self with wire := self.wire ++ bs.take k, outcomes := os })
  | os => (.ok (), { self with wire := self.wire ++ bs, outcomes := os.tail })

/-- Flush the socket. -/
def flush (self : Socket) : Except IoError Unit × Socket :=
  match self.outcomes with
  | some (_, e) :: os => (.error e, { self with outcomes := os })
  | os => (.ok (), { self with outcomes := os.tail })

end Socket

end Handshake

end Soketto
