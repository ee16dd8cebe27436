import Soketto.Handshake.Client
import Soketto.Handshake.Render
import Soketto.Handshake.Server

/-!
# Heads of HTTP messages

A head is a start line, headers of one line each, and an empty line. What client and server write is
a head of valid headers.

* `IsTarget`, `IsValue`, `ValidHeader`: what may stand in a head.
* `requestHead`, `responseHead`: heads; `Http.Parser.ReadsHeads`: the parser reads them back.
* `WellFormed`: what is asked of extensions.
* **`encodeRequest_eq`**, **`encodeResponse_eq`**, with `valid_requestHeaders` and
  `valid_responseHeaders`.
-/

set_option autoImplicit false

namespace Soketto.Handshake

open Text

/-! ## Parts of a head -/

/-- The characters of URIs. -/
def isTargetChar (c : Char) : Bool :=
  let n := c.toNat
  n == 33 || (35 ≤ n && n ≤ 59) || n == 61 || (63 ≤ n && n ≤ 91) || n == 93 || n == 95 ||
    (97 ≤ n && n ≤ 122) || n == 126

/-- The text is a request target. -/
def IsTarget (s : String) : Prop := s ≠ "" ∧ ∀ c ∈ s.toList, isTargetChar c = true

/-- Space and tab. -/
def isBlank (b : UInt8) : Bool := b == 9 || b == 32

/-- The bytes of header values: no control characters but the tab. -/
def isValueByte (b : UInt8) : Bool := b == 9 || (32 ≤ b.toNat && b != 127)

/-- The bytes are a header value. It has no blanks at its ends. -/
structure IsValue (v : List UInt8) : Prop where
  bytes : ∀ b ∈ v, isValueByte b = true
  first : ∀ b ∈ v.head?, isBlank b = false
  last : ∀ b ∈ v.getLast?, isBlank b = false

/-- A token and a value. -/
structure ValidHeader (h : Http.Header) : Prop where
  name : IsToken h.name
  value : IsValue h.value

/-- The bytes are visible characters of ASCII. -/
def IsVisible (bs : List UInt8) : Prop := ∀ b ∈ bs, 32 < b.toNat ∧ b.toNat < 127

section Parts

variable {bs v w : List UInt8}

theorem IsVisible.append (hv : IsVisible v) (hw : IsVisible w) : IsVisible (v ++ w) := by
  intro b hb
  rcases List.mem_append.mp hb with hb | hb
  · exact hv b hb
  · exact hw b hb

theorem isValueByte_of_visible {b : UInt8} (h : 32 < b.toNat ∧ b.toNat < 127) :
    isValueByte b = true ∧ isBlank b = false := by
  have hne : ∀ n : UInt8, b.toNat ≠ n.toNat → b ≠ n := fun n hn he => hn (congrArg UInt8.toNat he)
  have h₉ := hne 9 (show b.toNat ≠ 9 by omega)
  have h₃₂ := hne 32 (show b.toNat ≠ 32 by omega)
  have h₁₂₇ := hne 127 (show b.toNat ≠ 127 by omega)
  simp [isValueByte, isBlank, h₉, h₃₂, h₁₂₇]
  omega

theorem IsVisible.isValue (h : IsVisible v) : IsValue v where
  bytes b hb := (isValueByte_of_visible (h b hb)).1
  first b hb := (isValueByte_of_visible (h b (List.mem_of_mem_head? hb))).2
  last b hb := (isValueByte_of_visible (h b (List.mem_of_mem_getLast? hb))).2

theorem IsToken.isVisible {s : String} (h : IsToken s) : IsVisible (utf8 s) := by
  refine forall_utf8 (p := fun n => 32 < n ∧ n < 127) fun c hc => ?_
  have hn := toNat_of_isTokenChar (h.2 c hc)
  exact ⟨by omega, hn⟩

theorem IsToken.not_mem {s : String} (h : IsToken s) {b : UInt8}
    (hb : isTokenChar (Char.ofNat b.toNat) = false) : b ∉ utf8 s := by
  have hne : ∀ x ∈ utf8 s, x.toNat ≠ b.toNat := by
    refine forall_utf8 (p := (· ≠ b.toNat)) fun c hc => ?_
    have hn := toNat_of_isTokenChar (h.2 c hc)
    refine ⟨by omega, fun hcb => ?_⟩
    rw [← hcb, Char.ofNat_toNat, h.2 c hc] at hb
    cases hb
  exact fun hmem => hne b hmem rfl

theorem ValidHeader.of_value {name : String} (hn : IsToken name) (hv : IsValue v) :
    ValidHeader ⟨name, v⟩ := ⟨hn, hv⟩

theorem ValidHeader.of_token {name value : String} (hn : IsToken name) (hv : IsToken value) :
    ValidHeader ⟨name, utf8 value⟩ := ⟨hn, hv.isVisible.isValue⟩

theorem utf8_ne_nil {s : String} (h : s ≠ "") : utf8 s ≠ [] := by
  intro hnil
  exact h (utf8_injective (hnil.trans (by decide : utf8 "" = []).symm))

/-- A value that is not empty. -/
def IsSolid (v : List UInt8) : Prop := v ≠ [] ∧ IsValue v

theorem IsToken.isSolid {s : String} (h : IsToken s) : IsSolid (utf8 s) :=
  ⟨utf8_ne_nil h.1, h.isVisible.isValue⟩

theorem IsSolid.append (hv : IsSolid v) (hm : ∀ b ∈ bs, isValueByte b = true) (hw : IsSolid w) :
    IsSolid (v ++ bs ++ w) := by
  refine ⟨by simp [hv.1], ?_, ?_, ?_⟩
  · intro b hb
    rw [List.mem_append, List.mem_append] at hb
    rcases hb with (hb | hb) | hb
    · exact hv.2.bytes b hb
    · exact hm b hb
    · exact hw.2.bytes b hb
  · rw [List.append_assoc, List.head?_append_of_ne_nil _ hv.1]
    exact hv.2.first
  · rw [List.getLast?_append_of_ne_nil _ hw.1]
    exact hw.2.last

end Parts

/-! ## Heads -/

/-- The head of a request. -/
def requestHead (method target : String) (headers : List Http.Header) : List UInt8 :=
  utf8 method ++ utf8 " " ++ utf8 target ++ utf8 " HTTP/1.1" ++ Client.headersBytes headers ++
    utf8 "\r\n\r\n"

/-- The three digits of a status code. -/
def codeDigits (n : ℕ) : List UInt8 :=
  [UInt8.ofNat (48 + n / 100), UInt8.ofNat (48 + n / 10 % 10), UInt8.ofNat (48 + n % 10)]

/-- The head of a response. -/
def responseHead (code : UInt16) (phrase : List UInt8) (headers : List Http.Header) : List UInt8 :=
  utf8 "HTTP/1.1 " ++ codeDigits code.toNat ++ utf8 " " ++ phrase ++ Client.headersBytes headers ++
    utf8 "\r\n\r\n"

/-- The parser reads heads back, and the offset is the length of the head. -/
structure ReadsHeads (http : Http.Parser) : Prop where
  request {method target : String} {headers : List Http.Header} (hm : IsToken method)
    (ht : IsTarget target) (hv : ∀ h ∈ headers, ValidHeader h) (hn : headers.length ≤ maxNumHeaders) :
    http.request (requestHead method target headers) =
      .ok (.complete ⟨some method, some target, some 1, headers⟩
        (requestHead method target headers).length)
  response {code : UInt16} {phrase : List UInt8} {headers : List Http.Header}
    (hc : 100 ≤ code.toNat ∧ code.toNat < 1000) (hp : ∀ b ∈ phrase, isValueByte b = true)
    (hv : ∀ h ∈ headers, ValidHeader h) (hn : headers.length ≤ maxNumHeaders) :
    http.response (responseHead code phrase headers) =
      .ok (.complete ⟨some 1, some code, headers⟩ (responseHead code phrase headers).length)

/-! ## What client and server write -/

/-- The headers of the client's request. -/
def Client.requestHeaders {E : Type} [Extension E] (self : Client E) (nonce : Vector UInt8 16) :
    List Http.Header :=
  [⟨"Host", utf8 self.host⟩, ⟨"Upgrade", utf8 "websocket"⟩, ⟨"Connection", utf8 "Upgrade"⟩,
    ⟨"Sec-WebSocket-Key", (WebSocketKey.ofNonce nonce).toList⟩] ++ self.headers ++
    (if self.protocols.isEmpty then []
      else [⟨secWebSocketProtocol, Client.joinProtocols self.protocols⟩]) ++
    offerHeaders self.extensions ++ [⟨"Sec-WebSocket-Version", utf8 "13"⟩]

/-- The headers of the server's response. -/
def Server.responseHeaders {E : Type} [Extension E] (self : Server E)
    (sha1 : List UInt8 → Vector UInt8 20) (key : WebSocketKey) (protocol : Option String) :
    List Http.Header :=
  [⟨"Server", utf8 "soketto-0.8.1"⟩, ⟨"Upgrade", utf8 "websocket"⟩, ⟨"Connection", utf8 "upgrade"⟩,
    ⟨"Sec-WebSocket-Accept", (generateAcceptKey sha1 key).toList⟩] ++
    (protocol.map fun p => ⟨secWebSocketProtocol, utf8 p⟩).toList ++
    offerHeaders (self.extensions.filter Extension.isEnabled)

theorem headersBytes_append (hs ts : List Http.Header) :
    Client.headersBytes (hs ++ ts) = Client.headersBytes hs ++ Client.headersBytes ts :=
  List.flatMap_append

section

variable {E : Type} [Extension E]

theorem appendExtensions_headersBytes (es : List E) :
    appendExtensions es = Client.headersBytes (offerHeaders es) := appendExtensions_eq es

/-- **The request** is a head. -/
theorem encodeRequest_eq (self : Client E) (nonce : Vector UInt8 16) :
    ({ self with buffer := [] }.encodeRequest nonce).buffer =
      requestHead "GET" self.resource (self.requestHeaders nonce) := by
  have hget : utf8 "GET " = utf8 "GET" ++ utf8 " " := by decide
  have hhost : utf8 "\r\nHost: " = utf8 "\r\n" ++ utf8 "Host" ++ utf8 ": " := by decide
  have hupgrade : utf8 "\r\nUpgrade: websocket\r\nConnection: Upgrade" = utf8 "\r\n" ++
      utf8 "Upgrade" ++ utf8 ": " ++ utf8 "websocket" ++ (utf8 "\r\n" ++ utf8 "Connection" ++
      utf8 ": " ++ utf8 "Upgrade") := by decide
  have hkey : utf8 "\r\nSec-WebSocket-Key: " = utf8 "\r\n" ++ utf8 "Sec-WebSocket-Key" ++
      utf8 ": " := by decide
  have hprotocol : utf8 "\r\nSec-WebSocket-Protocol: " = utf8 "\r\n" ++
      utf8 secWebSocketProtocol ++ utf8 ": " := by decide
  have hversion : utf8 "\r\nSec-WebSocket-Version: 13\r\n\r\n" = utf8 "\r\n" ++
      utf8 "Sec-WebSocket-Version" ++ utf8 ": " ++ utf8 "13" ++ utf8 "\r\n\r\n" := by
    decide
  have hprotocols : (if self.protocols.isEmpty then []
      else utf8 "\r\nSec-WebSocket-Protocol: " ++ Client.joinProtocols self.protocols) =
      Client.headersBytes (if self.protocols.isEmpty then []
        else [⟨secWebSocketProtocol, Client.joinProtocols self.protocols⟩]) := by
    split_ifs
    · rfl
    · rw [hprotocol]
      simp [Client.headersBytes]
  rw [Client.encodeRequest, requestHead, Client.requestHeaders]
  dsimp only
  rw [hprotocols, hget, hhost, hupgrade, hkey, hversion, appendExtensions_headersBytes]
  simp only [headersBytes_append, List.append_assoc, List.nil_append]
  simp [Client.headersBytes]

/-- **The response** is a head. -/
theorem encodeResponse_eq (self : Server E) (sha1 : List UInt8 → Vector UInt8 20)
    (key : WebSocketKey) (protocol : Option String) :
    self.encodeResponse sha1 (.accept key protocol) =
      responseHead 101 (utf8 "Switching Protocols") (self.responseHeaders sha1 key protocol) := by
  have hstatus : utf8 "HTTP/1.1 101 Switching Protocols" = utf8 "HTTP/1.1 " ++
      codeDigits (101 : UInt16).toNat ++ utf8 " " ++ utf8 "Switching Protocols" := by decide
  have hserver : utf8 "\r\nServer: soketto-0.8.1" = utf8 "\r\n" ++ utf8 "Server" ++ utf8 ": " ++
      utf8 "soketto-0.8.1" := by decide
  have hupgrade : utf8 "\r\nUpgrade: websocket" = utf8 "\r\n" ++ utf8 "Upgrade" ++ utf8 ": " ++
      utf8 "websocket" := by decide
  have hconnection : utf8 "\r\nConnection: upgrade" = utf8 "\r\n" ++ utf8 "Connection" ++
      utf8 ": " ++ utf8 "upgrade" := by decide
  have haccept : utf8 "\r\nSec-WebSocket-Accept: " = utf8 "\r\n" ++
      utf8 "Sec-WebSocket-Accept" ++ utf8 ": " := by decide
  have hprotocol : utf8 "\r\nSec-WebSocket-Protocol: " = utf8 "\r\n" ++
      utf8 secWebSocketProtocol ++ utf8 ": " := by decide
  have hprotocols : (protocol.elim [] fun p => utf8 "\r\nSec-WebSocket-Protocol: " ++ utf8 p) =
      Client.headersBytes (protocol.map fun p => ⟨secWebSocketProtocol, utf8 p⟩).toList := by
    cases protocol with
    | none => rfl
    | some p => simp [Client.headersBytes, hprotocol]
  rw [Server.encodeResponse, responseHead, Server.responseHeaders, hprotocols, hstatus, hserver,
    hupgrade, hconnection, haccept, appendExtensions_headersBytes]
  simp only [headersBytes_append, List.append_assoc]
  simp [Client.headersBytes]

/-! ## It is valid -/

/-- An extension whose name and parameters are tokens and that does not fail when it is configured with
tokens. -/
structure WellFormed (e : E) : Prop where
  name : IsToken (Extension.name e)
  params : TokenParams (Extension.params e)
  configure : ∀ ps, TokenParams ps → (Extension.configure e ps).1 = .ok ()

theorem WellFormed.offering {es : List E} (h : ∀ e ∈ es, WellFormed e) {x : Http.Header}
    (hx : x ∈ offerHeaders es) : Offering TokenParams x :=
  offering_offerHeaders (fun e he => (h e he).name) (fun e he => (h e he).params) hx

end

theorem base64Char_visible (n : ℕ) : 32 < (base64Char n).toNat ∧ (base64Char n).toNat < 127 := by
  unfold base64Char
  split_ifs <;> simp [UInt8.toNat_ofNat'] <;> omega

theorem isVisible_base64 (bs : List UInt8) : IsVisible (base64 bs) := by
  induction bs using base64.induct with
  | case1 => simp [base64, IsVisible]
  | case2 a => simp [base64, IsVisible, base64Char_visible]
  | case3 a b => simp [base64, IsVisible, base64Char_visible]
  | case4 a b c bs ih =>
    simp only [base64, IsVisible, List.forall_mem_cons, base64Char_visible, true_and]
    exact ih

theorem isVisible_joinProtocols {ps : List String} (h : ∀ p ∈ ps, IsToken p) :
    IsVisible (Client.joinProtocols ps) := by
  induction ps with
  | nil => simp [Client.joinProtocols, IsVisible]
  | cons p ps ih =>
    have hp := (h p List.mem_cons_self).isVisible
    have hps := ih fun q hq => h q (List.mem_cons_of_mem _ hq)
    have hcomma : IsVisible (utf8 ",") := by
      rw [show utf8 "," = [44] by decide]
      simp [IsVisible]
    cases ps with
    | nil => exact hp
    | cons q ps => exact (hp.append hcomma).append hps

section

variable {E : Type} [Extension E]

omit [Extension E] in
theorem IsSolid.paramBytes {v : List UInt8} (hv : IsSolid v) {p : Param} (hp : IsTokenParam p) :
    IsSolid (v ++ paramBytes p) := by
  have hname : IsSolid (v ++ utf8 "; " ++ utf8 p.name) :=
    hv.append (List.all_eq_true.mp (by decide)) hp.1.isSolid
  cases hvalue : p.value with
  | none =>
    have heq : v ++ Handshake.paramBytes p = v ++ utf8 "; " ++ utf8 p.name := by
      simp [Handshake.paramBytes, hvalue]
    rw [heq]
    exact hname
  | some w =>
    have heq : v ++ Handshake.paramBytes p =
        v ++ utf8 "; " ++ utf8 p.name ++ utf8 "=" ++ utf8 w := by
      simp [Handshake.paramBytes, hvalue]
    rw [heq]
    exact hname.append (List.all_eq_true.mp (by decide)) (hp.2 w hvalue).isSolid

omit [Extension E] in
theorem IsSolid.flatMap_paramBytes {v : List UInt8} (hv : IsSolid v) {ps : List Param}
    (hps : ∀ p ∈ ps, IsTokenParam p) : IsSolid (v ++ ps.flatMap Handshake.paramBytes) := by
  induction ps generalizing v with
  | nil => simpa using hv
  | cons p ps ih =>
    rw [List.flatMap_cons, ← List.append_assoc]
    exact ih (hv.paramBytes (hps p List.mem_cons_self)) fun q hq => hps q (List.mem_cons_of_mem _ hq)

theorem WellFormed.isSolid {e : E} (h : WellFormed e) : IsSolid (extensionBytes e) :=
  h.name.isSolid.flatMap_paramBytes h.params

theorem isSolid_appendExtensionHeaderValue {es : List E} (hne : es ≠ [])
    (h : ∀ e ∈ es, WellFormed e) : IsSolid (appendExtensionHeaderValue es) := by
  induction es with
  | nil => exact absurd rfl hne
  | cons e es ih =>
    have he := (h e List.mem_cons_self).isSolid
    cases es with
    | nil => exact he
    | cons e' es =>
      have hes := ih (List.cons_ne_nil _ _) fun x hx => h x (List.mem_cons_of_mem _ hx)
      exact he.append (List.all_eq_true.mp (by decide)) hes

theorem valid_offerHeaders {es : List E} (h : ∀ e ∈ es, WellFormed e) :
    ∀ x ∈ offerHeaders es, ValidHeader x := by
  intro x hx
  unfold offerHeaders at hx
  split_ifs at hx with hnil
  · cases hx
  · obtain rfl := List.mem_singleton.mp hx
    have hne : es ≠ [] := by
      rintro rfl
      exact hnil rfl
    exact .of_value (by decide) (isSolid_appendExtensionHeaderValue hne h).2

/-- The client's headers are valid. -/
theorem valid_requestHeaders {c : Client E} (hhost : IsValue (utf8 c.host))
    (hheaders : ∀ h ∈ c.headers, ValidHeader h) (hprotocols : ∀ p ∈ c.protocols, IsToken p)
    (hext : ∀ e ∈ c.extensions, WellFormed e) (nonce : Vector UInt8 16) :
    ∀ h ∈ c.requestHeaders nonce, ValidHeader h := by
  intro h hh
  rw [Client.requestHeaders] at hh
  simp only [List.mem_append, List.mem_cons, List.not_mem_nil, or_false] at hh
  rcases hh with ((((rfl | rfl | rfl | rfl) | hh) | hh) | hh) | rfl
  · exact .of_value (by decide) hhost
  · exact .of_token (by decide) (by decide)
  · exact .of_token (by decide) (by decide)
  · exact .of_value (by decide) (isVisible_base64 _).isValue
  · exact hheaders h hh
  · split_ifs at hh
    · cases hh
    · obtain rfl := List.mem_singleton.mp hh
      exact .of_value (by decide) (isVisible_joinProtocols hprotocols).isValue
  · exact valid_offerHeaders hext h hh
  · exact .of_token (by decide) (by decide)

/-- The server's headers are valid. -/
theorem valid_responseHeaders {s : Server E} (hext : ∀ e ∈ s.extensions, WellFormed e)
    {protocol : Option String} (hprotocol : ∀ p ∈ protocol, IsToken p)
    (sha1 : List UInt8 → Vector UInt8 20) (key : WebSocketKey) :
    ∀ h ∈ s.responseHeaders sha1 key protocol, ValidHeader h := by
  intro h hh
  rw [Server.responseHeaders] at hh
  simp only [List.mem_append, List.mem_cons, List.not_mem_nil, or_false] at hh
  rcases hh with ((rfl | rfl | rfl | rfl) | hh) | hh
  · exact .of_token (by decide) (by decide)
  · exact .of_token (by decide) (by decide)
  · exact .of_token (by decide) (by decide)
  · exact .of_value (by decide) (isVisible_base64 _).isValue
  · obtain ⟨p, hp, rfl⟩ := Option.mem_map.mp (Option.mem_toList.mp hh)
    exact .of_token (by decide) (hprotocol p hp)
  · exact valid_offerHeaders (fun e he => hext e (List.mem_filter.mp he).1) h hh

end

end Soketto.Handshake
