import Soketto.Handshake.Parser
import Soketto.Lib.Sha1
import Soketto.Negotiation

/-!
# Client and server agree

The server reads the request of the client, and the client reads the response of the server.

* `ValidClient`: the client's settings can be written in a request.
* `expectAsciiHeader_of_text`: looking at headers.
* **`decodeRequest_encodeRequest`**, **`decodeResponse_encodeResponse`**: each side reads the other.
* **`agreement`**: both together; `always_wellFormed_deflate`: it is so with deflate.
* **`protocols_iff`**: when the server finds the protocols that both sides have.
-/

set_option autoImplicit false

namespace Soketto.Handshake

open Text

/-! ## Looking at headers -/

section Headers

variable {headers : List Http.Header} {name ours : String}

theorem foldl_expectStep_found (headers : List Http.Header) :
    headers.foldl (expectStep ours) (.ok .found) = .ok .found := by
  induction headers with
  | nil => rfl
  | cons h headers ih => simpa [expectStep] using ih

/-- One header with the value is enough. -/
theorem expectAsciiHeader_of_text (text : String) (hmem : ⟨name, utf8 text⟩ ∈ headers)
    (htoken : hasToken text ours = true) : expectAsciiHeader headers name ours = .ok () := by
  have hfilter : ⟨name, utf8 text⟩ ∈ headers.filter fun h => eqIgnoreAsciiCase h.name name :=
    List.mem_filter.mpr ⟨hmem, by simp [eqIgnoreAsciiCase]⟩
  obtain ⟨hs, ts, heq⟩ := List.append_of_mem hfilter
  have hstep : ∀ r, expectStep ours r ⟨name, utf8 text⟩ = .ok .found := by
    intro r
    unfold expectStep
    split_ifs with hr
    · exact hr
    · simp [htoken]
  rw [expectAsciiHeader, heq, List.foldl_append, List.foldl_cons, hstep, foldl_expectStep_found]

theorem withFirstHeader_of_find {α : Type} {h : Http.Header} {f : List UInt8 → Except Error α}
    (hfind : (headers.find? fun h => eqIgnoreAsciiCase h.name name) = some h) :
    withFirstHeader headers name f = f h.value := by
  rw [withFirstHeader, hfind]

theorem offering_of_ne {D : List Param → Prop} {h : Http.Header}
    (hno : eqIgnoreAsciiCase h.name secWebSocketExtensions = false) : Offering D h := by
  intro hyes
  rw [hno] at hyes
  cases hyes

theorem find_utf8 {ps : List String} {p : String} (h : p ∈ ps) :
    (ps.find? fun x => utf8 x == utf8 p) = some p := by
  cases hf : ps.find? fun x => utf8 x == utf8 p with
  | none => simpa using List.find?_eq_none.mp hf p h
  | some q =>
    have hq : utf8 q = utf8 p := by simpa using List.find?_some hf
    rw [utf8_injective hq]

end Headers

/-! ## The request -/

/-- What a client is set up with can be written in a request. Its own headers are not those for
protocols and extensions; of the other names the request has its header first, or one that fits is
enough. -/
structure ValidClient {E : Type} [Extension E] (c : Client E) : Prop where
  resource : IsTarget c.resource
  host : IsValue (utf8 c.host)
  headers : ∀ h ∈ c.headers, ValidHeader h
  extensionsName : ∀ h ∈ c.headers, eqIgnoreAsciiCase h.name secWebSocketExtensions = false
  protocolName : ∀ h ∈ c.headers, eqIgnoreAsciiCase h.name secWebSocketProtocol = false
  protocols : ∀ p ∈ c.protocols, IsToken p
  extensions : ∀ e ∈ c.extensions, Extension.Always TokenParams WellFormed e
  count : ∀ nonce, (c.requestHeaders nonce).length ≤ maxNumHeaders

theorem tryFrom_toList (key : WebSocketKey) : WebSocketKey.tryFrom key.toList = some key := by
  rw [WebSocketKey.tryFrom, dif_pos (by simp)]
  simp [Vector.toList]

section Request

variable {X Y : Type} [Extension X] [Extension Y] {http : Http.Parser}

theorem offering_requestHeaders {c : Client X} (hc : ValidClient c) (nonce : Vector UInt8 16) :
    ∀ h ∈ c.requestHeaders nonce, Offering TokenParams h := by
  intro h hh
  rw [Client.requestHeaders] at hh
  simp only [List.mem_append, List.mem_cons, List.not_mem_nil, or_false] at hh
  rcases hh with ((((rfl | rfl | rfl | rfl) | hh) | hh) | hh) | rfl
  · exact offering_of_ne (show eqIgnoreAsciiCase "Host" _ = false by decide)
  · exact offering_of_ne (show eqIgnoreAsciiCase "Upgrade" _ = false by decide)
  · exact offering_of_ne (show eqIgnoreAsciiCase "Connection" _ = false by decide)
  · exact offering_of_ne (show eqIgnoreAsciiCase "Sec-WebSocket-Key" _ = false by decide)
  · exact offering_of_ne (hc.extensionsName h hh)
  · split_ifs at hh
    · cases hh
    · obtain rfl := List.mem_singleton.mp hh
      exact offering_of_ne (show eqIgnoreAsciiCase secWebSocketProtocol _ = false by decide)
  · exact WellFormed.offering (fun e he => (hc.extensions e he).now) hh
  · exact offering_of_ne (show eqIgnoreAsciiCase "Sec-WebSocket-Version" _ = false by decide)

/-- **The server reads the request.** -/
theorem decodeRequest_encodeRequest (hhttp : ReadsHeads http) {c : Client X} (hc : ValidClient c)
    (nonce : Vector UInt8 16) {s : Server Y}
    (hs : ∀ e ∈ s.extensions, Extension.Always TokenParams WellFormed e)
    (hbuffer : s.buffer = ({ c with buffer := [] }.encodeRequest nonce).buffer) :
    ∃ origin extensions,
      s.decodeRequest http = (.ok ⟨WebSocketKey.ofNonce nonce,
        Server.selectProtocols s.protocols (c.requestHeaders nonce), c.resource,
        ⟨utf8 c.host, origin⟩⟩, { s with extensions }) ∧
      ∀ e ∈ extensions, Extension.Always TokenParams WellFormed e := by
  obtain ⟨extensions, hext, hall⟩ := configureHeaders_ok (fun e he => he.configure)
    (offering_requestHeaders hc nonce) hs
  have hvalid := valid_requestHeaders hc.host hc.headers hc.protocols
    (fun e he => (hc.extensions e he).now) nonce
  have hparse := hhttp.request (show IsToken "GET" by decide) hc.resource hvalid
    (hc.count nonce)
  rw [← encodeRequest_eq, ← hbuffer] at hparse
  have hhost : ∀ f : List UInt8 → Except Error (List UInt8),
      withFirstHeader (c.requestHeaders nonce) "Host" f = f (utf8 c.host) := by
    intro f
    exact withFirstHeader_of_find (List.find?_cons_of_pos
      (show eqIgnoreAsciiCase "Host" "Host" = true by decide))
  have hkey : ∀ f : List UInt8 → Except Error WebSocketKey,
      withFirstHeader (c.requestHeaders nonce) "Sec-WebSocket-Key" f =
        f (WebSocketKey.ofNonce nonce).toList := by
    intro f
    have hother : eqIgnoreAsciiCase "Host" "Sec-WebSocket-Key" = false ∧
        eqIgnoreAsciiCase "Upgrade" "Sec-WebSocket-Key" = false ∧
        eqIgnoreAsciiCase "Connection" "Sec-WebSocket-Key" = false ∧
        eqIgnoreAsciiCase "Sec-WebSocket-Key" "Sec-WebSocket-Key" = true := by decide
    refine withFirstHeader_of_find (h := ⟨"Sec-WebSocket-Key", (WebSocketKey.ofNonce nonce).toList⟩) ?_
    simp only [Client.requestHeaders, List.cons_append, List.find?_cons, hother]
  have hupgrade : expectAsciiHeader (c.requestHeaders nonce) "Upgrade" "websocket" = .ok () :=
    expectAsciiHeader_of_text "websocket" (by simp [Client.requestHeaders]) (by decide)
  have hconnection : expectAsciiHeader (c.requestHeaders nonce) "Connection" "upgrade" = .ok () :=
    expectAsciiHeader_of_text "Upgrade" (by simp [Client.requestHeaders]) (by decide)
  have hversion : expectAsciiHeader (c.requestHeaders nonce) "Sec-WebSocket-Version" "13" =
      .ok () :=
    expectAsciiHeader_of_text "13" (by simp [Client.requestHeaders]) (by decide)
  refine ⟨((c.requestHeaders nonce).find? fun h => eqIgnoreAsciiCase h.name "Origin").map (·.value),
    extensions, ?_, hall⟩
  rw [Server.decodeRequest, hparse]
  dsimp only
  rw [Server.checkRequest]
  simp only [hhost, hkey, hupgrade, hconnection, hversion, tryFrom_toList, hext, ne_eq,
    not_true_eq_false, if_false]
  rfl

end Request

/-! ## The response -/

section Response

variable {X Y : Type} [Extension X] [Extension Y] {http : Http.Parser}
  {sha1 : List UInt8 → Vector UInt8 20} {s : Server Y} {key : WebSocketKey} {p : Option String}

theorem offering_responseHeaders (hs : ∀ e ∈ s.extensions, WellFormed e)
    (sha1 : List UInt8 → Vector UInt8 20) (key : WebSocketKey) (p : Option String) :
    ∀ h ∈ s.responseHeaders sha1 key p, Offering TokenParams h := by
  intro h hh
  rw [Server.responseHeaders] at hh
  simp only [List.mem_append, List.mem_cons, List.not_mem_nil, or_false] at hh
  rcases hh with ((rfl | rfl | rfl | rfl) | hh) | hh
  · exact offering_of_ne (show eqIgnoreAsciiCase "Server" _ = false by decide)
  · exact offering_of_ne (show eqIgnoreAsciiCase "Upgrade" _ = false by decide)
  · exact offering_of_ne (show eqIgnoreAsciiCase "Connection" _ = false by decide)
  · exact offering_of_ne (show eqIgnoreAsciiCase "Sec-WebSocket-Accept" _ = false by decide)
  · obtain ⟨q, -, rfl⟩ := Option.mem_map.mp (Option.mem_toList.mp hh)
    exact offering_of_ne (show eqIgnoreAsciiCase secWebSocketProtocol _ = false by decide)
  · exact WellFormed.offering (fun e he => hs e (List.mem_filter.mp he).1) hh

theorem find_responseHeaders :
    ((s.responseHeaders sha1 key p).find? fun h => eqIgnoreAsciiCase h.name secWebSocketProtocol) =
      p.map fun q => ⟨secWebSocketProtocol, utf8 q⟩ := by
  have hother : eqIgnoreAsciiCase "Server" secWebSocketProtocol = false ∧
      eqIgnoreAsciiCase "Upgrade" secWebSocketProtocol = false ∧
      eqIgnoreAsciiCase "Connection" secWebSocketProtocol = false ∧
      eqIgnoreAsciiCase "Sec-WebSocket-Accept" secWebSocketProtocol = false := by decide
  have hself : eqIgnoreAsciiCase secWebSocketProtocol secWebSocketProtocol = true := by
    decide
  have hext : eqIgnoreAsciiCase secWebSocketExtensions secWebSocketProtocol = false := by
    decide
  cases p with
  | some q =>
    simp [Server.responseHeaders, hother, hself]
  | none =>
    simp only [Server.responseHeaders, List.cons_append, List.nil_append, List.find?_cons, hother,
      Option.map_none, Option.toList_none, offerHeaders]
    split_ifs
    · rfl
    · simp [hext]

theorem length_responseHeaders_le : (s.responseHeaders sha1 key p).length ≤ maxNumHeaders := by
  have hp : (p.map fun q => (⟨secWebSocketProtocol, utf8 q⟩ : Http.Header)).toList.length ≤ 1 := by
    cases p <;> simp
  have he : (offerHeaders (s.extensions.filter Extension.isEnabled)).length ≤ 1 := by
    unfold offerHeaders
    split_ifs <;> simp
  simp only [Server.responseHeaders, List.length_append, List.length_cons, List.length_nil,
    maxNumHeaders]
  omega

/-- **The client reads the response.** -/
theorem decodeResponse_encodeResponse (hhttp : ReadsHeads http)
    (hs : ∀ e ∈ s.extensions, WellFormed e) {c : Client X}
    (hc : ∀ e ∈ c.extensions, Extension.Always TokenParams WellFormed e) (hkey : c.nonce = key)
    (hprotocols : ∀ q ∈ c.protocols, IsToken q) (hp : ∀ q ∈ p, q ∈ c.protocols)
    (hbuffer : c.buffer = s.encodeResponse sha1 (.accept key p)) :
    ∃ extensions, c.decodeResponse http sha1 =
      (.ok (.done (.accepted p) c.buffer.length), { c with extensions }) := by
  obtain ⟨extensions, hext, -⟩ := configureHeaders_ok (fun e he => he.configure)
    (offering_responseHeaders hs sha1 key p) hc
  have hvalid := valid_responseHeaders hs (fun q hq => hprotocols q (hp q hq)) sha1 key
  have hphrase : ∀ b ∈ utf8 "Switching Protocols", isValueByte b = true :=
    List.all_eq_true.mp (by decide)
  have hcode : 100 ≤ (101 : UInt16).toNat ∧ (101 : UInt16).toNat < 1000 := by decide
  have hparse := hhttp.response hcode hphrase hvalid length_responseHeaders_le
  rw [← encodeResponse_eq, ← hbuffer] at hparse
  have hupgrade : expectAsciiHeader (s.responseHeaders sha1 key p) "Upgrade" "websocket" =
      .ok () :=
    expectAsciiHeader_of_text "websocket" (by simp [Server.responseHeaders]) (by decide)
  have hconnection : expectAsciiHeader (s.responseHeaders sha1 key p) "Connection" "upgrade" =
      .ok () :=
    expectAsciiHeader_of_text "upgrade" (by simp [Server.responseHeaders]) (by decide)
  have haccept : ∀ f : List UInt8 → Except Error Unit,
      withFirstHeader (s.responseHeaders sha1 key p) "Sec-WebSocket-Accept" f =
        f (base64 (sha1 (c.nonce.toList ++ KEY)).toList) := by
    intro f
    have hother : eqIgnoreAsciiCase "Server" "Sec-WebSocket-Accept" = false ∧
        eqIgnoreAsciiCase "Upgrade" "Sec-WebSocket-Accept" = false ∧
        eqIgnoreAsciiCase "Connection" "Sec-WebSocket-Accept" = false ∧
        eqIgnoreAsciiCase "Sec-WebSocket-Accept" "Sec-WebSocket-Accept" = true := by decide
    subst hkey
    refine withFirstHeader_of_find
      (h := ⟨"Sec-WebSocket-Accept", (generateAcceptKey sha1 c.nonce).toList⟩) ?_
    simp only [Server.responseHeaders, List.cons_append, List.find?_cons, hother]
  have hchecked : c.checkAccepted sha1 (s.responseHeaders sha1 key p) =
      (.ok p, { c with extensions }) := by
    rw [Client.checkAccepted]
    simp only [hupgrade, hconnection, haccept, hext, find_responseHeaders, ne_eq, not_true_eq_false,
      if_false]
    cases p with
    | none => rfl
    | some q =>
      rw [Option.map_some]
      dsimp only
      rw [find_utf8 (hp q rfl)]
      rfl
  refine ⟨extensions, ?_⟩
  rw [Client.decodeResponse, hparse]
  dsimp only
  rw [hchecked]
  rfl

end Response

/-! ## Deflate is well-formed -/

section Deflate

variable {F : Flate} {d : Deflate F} {ps : List Param}

theorem isTokenParam_new {name : String} (h : IsToken name) : IsTokenParam (.new name) :=
  ⟨h, fun _ hv => nomatch hv⟩

theorem TokenParams.push (h : TokenParams ps) {p : Param} (hp : IsTokenParam p) :
    TokenParams (ps ++ [p]) := by
  intro q hq
  rcases List.mem_append.mp hq with hq | hq
  · exact h q hq
  · obtain rfl := List.mem_singleton.mp hq
    exact hp

theorem tokenParams_serverParam (h : TokenParams d.params) (p : Param) :
    TokenParams (d.serverParam p).1.params := by
  rcases d.serverParam_cases p with hs | ⟨-, b, -, hs⟩ | ⟨-, v, -, hv, hs⟩ | ⟨hn, hs⟩
  · rw [hs]
    exact h
  · rw [hs]
    exact h
  · rw [hs]
    refine TokenParams.push h ⟨(by decide : IsToken serverMaxWindowBits), ?_⟩
    intro w hw
    cases hw
    exact isToken_window hv
  · rw [hs]
    rcases hn with hn | hn
    · exact TokenParams.push h (isTokenParam_new (hn ▸ by decide))
    · exact TokenParams.push h (isTokenParam_new (hn ▸ by decide))

theorem params_clientParam (d : Deflate F) (p : Param) : (d.clientParam p).1.params = d.params := by
  rcases d.clientParam_cases p with hs | ⟨v, -, -, -, hs⟩ | ⟨v, -, -, hs⟩
  · rw [hs]
  · rw [hs]
  · rw [hs]

theorem tokenParams_configure (h : TokenParams d.params) (ps : List Param) :
    TokenParams (d.configure ps).2.params := by
  cases hm : d.mode with
  | server =>
    have hw : TokenParams (Deflate.walkParams Deflate.serverParam d.cleared ps).1.params :=
      Deflate.walkParams_keeps (P := fun d => TokenParams d.params)
        (fun d p hd => tokenParams_serverParam hd p) (fun p hp => (List.not_mem_nil hp).elim) ps
    rw [Deflate.configure_server hm]
    exact hw
  | client =>
    have hw : TokenParams (Deflate.walkParams Deflate.clientParam d ps).1.params :=
      Deflate.walkParams_keeps (P := fun d => TokenParams d.params)
        (fun d p hd => (params_clientParam d p).symm ▸ hd) h ps
    rw [Deflate.configure_client_eq hm]
    exact hw

/-- Deflate is well-formed from its start on. -/
theorem always_wellFormed_deflate (h : TokenParams d.params) :
    Extension.Always TokenParams WellFormed d := by
  have hwf : ∀ {d : Deflate F}, TokenParams d.params → WellFormed d := fun {d} h =>
    ⟨show IsToken "permessage-deflate" by decide, h, fun ps _ => d.configure_ok ps⟩
  exact Extension.always_of_step (fun d hd ps _ => hwf (tokenParams_configure hd.params ps)) (hwf h)

theorem tokenParams_new (m : Mode) : TokenParams (Deflate.new m : Deflate F).params := by
  cases m with
  | server => exact fun p hp => nomatch hp
  | client =>
    intro p hp
    simp only [Deflate.new, List.mem_cons, List.not_mem_nil, or_false] at hp
    rcases hp with rfl | rfl | rfl <;> exact isTokenParam_new (by decide)

end Deflate

/-! ## Agreement -/

/-- **Agreement.** The server reads the key, the path and the host from the client's request, and
the client reads from all of the server's response that its request was accepted, and the protocol
that was chosen. -/
theorem agreement {X Y : Type} [Extension X] [Extension Y] {http : Http.Parser}
    {sha1 : List UInt8 → Vector UInt8 20} (hhttp : ReadsHeads http) {c : Client X}
    (hc : ValidClient c) (nonce : Vector UInt8 16) {s : Server Y}
    (hs : ∀ e ∈ s.extensions, Extension.Always TokenParams WellFormed e) {p : Option String}
    (hp : ∀ q ∈ p, q ∈ c.protocols) :
    let client := { c with buffer := [] }.encodeRequest nonce
    ∃ request server,
      { s with buffer := client.buffer }.decodeRequest http = (.ok request, server) ∧
      request.wsKey = client.nonce ∧ request.path = c.resource ∧
      request.headers.host = utf8 c.host ∧
      let response := server.encodeResponse sha1 (.accept request.wsKey p)
      ({ client with buffer := response }.decodeResponse http sha1).1 =
        .ok (.done (.accepted p) response.length) := by
  intro client
  obtain ⟨origin, extensions, hdecode, hall⟩ := decodeRequest_encodeRequest hhttp hc nonce
    (s := { s with buffer := client.buffer }) hs rfl
  refine ⟨_, _, hdecode, rfl, rfl, rfl, ?_⟩
  intro response
  obtain ⟨extensions', hresponse⟩ := decodeResponse_encodeResponse hhttp
    (s := { s with buffer := client.buffer, extensions }) (c := { client with buffer := response })
    (fun e he => (hall e he).now) hc.extensions rfl hc.protocols hp rfl
  rw [hresponse]

/-- A client with a header of its own, some protocols and deflate. -/
def chatClient (protocols : List String) : Client (Deflate .stored) where
  socket := ⟨[], [], []⟩
  host := "example.com"
  resource := "/chat?x=1"
  headers := [⟨"Origin", utf8 "http://example.com"⟩]
  nonce := Vector.replicate 24 0
  protocols := protocols
  extensions := [.new .client]
  buffer := []

def chatServer : Server (Deflate .stored) := ⟨⟨[], [], []⟩, ["superchat"], [.new .server], []⟩

theorem validClient_chatClient {ps : List String} (hps : ∀ p ∈ ps, IsToken p) :
    ValidClient (chatClient ps) where
  resource := ⟨show "/chat?x=1" ≠ "" by decide,
    List.all_eq_true.mp (show "/chat?x=1".toList.all isTargetChar = true by decide)⟩
  host := (show IsToken "example.com" by decide).isVisible.isValue
  headers := by
    intro h hh
    obtain rfl := List.mem_singleton.mp hh
    refine .of_value (by decide) ⟨List.all_eq_true.mp (by decide), ?_, ?_⟩
    · rw [show (utf8 "http://example.com").head? = some 104 by decide]
      rintro b ⟨⟩
      decide
    · rw [show (utf8 "http://example.com").getLast? = some 109 by decide]
      rintro b ⟨⟩
      decide
  extensionsName := show ∀ h ∈ [(⟨"Origin", _⟩ : Http.Header)], _ by decide
  protocolName := show ∀ h ∈ [(⟨"Origin", _⟩ : Http.Header)], _ by decide
  protocols := hps
  extensions := by
    intro e he
    obtain rfl := List.mem_singleton.mp he
    exact always_wellFormed_deflate (tokenParams_new .client)
  count nonce := by
    cases ps with
    | nil => exact (show 7 ≤ 32 by decide)
    | cons p ps => exact (show 8 ≤ 32 by decide)

theorem wellFormed_chatServer : ∀ e ∈ chatServer.extensions, Extension.Always TokenParams WellFormed e := by
  intro e he
  obtain rfl := List.mem_singleton.mp he
  exact always_wellFormed_deflate (tokenParams_new .server)

section Mirror

variable {F : Flate} {X : Type} [Extension X] {D : List Param → Prop}

theorem always_wellFormed_inl {d : Deflate F} (h : Extension.Always D WellFormed d) :
    Extension.Always D WellFormed (.inl d : Deflate F ⊕ X) := by
  intro pss hpss
  have hd := h pss hpss
  rw [configured_inl]
  exact ⟨hd.name, hd.params, fun ps hps => hd.configure ps hps⟩

theorem always_wellFormed_inr {x : X} (h : Extension.Always D WellFormed x) :
    Extension.Always D WellFormed (.inr x : Deflate F ⊕ X) := by
  intro pss hpss
  have hx := h pss hpss
  rw [configured_inr]
  refine ⟨hx.name, hx.params, fun ps hps => ?_⟩
  exact congrArg id (hx.configure ps hps)

theorem always_wellFormed_mirror {x : Mirror} (hname : IsToken x.name) (h : TokenParams x.params) :
    Extension.Always TokenParams WellFormed x :=
  Extension.always_of_step (fun _ hx _ hps => ⟨hx.name, hps, fun _ _ => rfl⟩)
    ⟨hname, h, fun _ _ => rfl⟩

end Mirror

/-- The client with another extension besides deflate. -/
def levelClient : Client (Deflate .stored ⊕ Mirror) :=
  { chatClient ["chat", "superchat"] with
    extensions := [.inr ⟨"x-level", [⟨"level", some "1"⟩]⟩, .inl (.new .client)] }

def levelServer : Server (Deflate .stored ⊕ Mirror) :=
  { chatServer with extensions := [.inl (.new .server), .inr ⟨"x-level", []⟩] }

theorem validClient_levelClient : ValidClient levelClient :=
  have hc : ValidClient (chatClient ["chat", "superchat"]) := validClient_chatClient (by decide)
  { hc with
    extensions := by
      have hlevel : TokenParams [⟨"level", some "1"⟩] := fun p hp => by
        obtain rfl := List.mem_singleton.mp hp
        exact ⟨by decide, fun v hv => Option.mem_some.mp hv ▸ by decide⟩
      exact List.forall_mem_cons.mpr ⟨always_wellFormed_inr (always_wellFormed_mirror (by decide) hlevel),
        List.forall_mem_singleton.mpr (always_wellFormed_inl
          (always_wellFormed_deflate (tokenParams_new .client)))⟩
    count := fun nonce => show 8 ≤ 32 by decide }

theorem wellFormed_levelServer :
    ∀ e ∈ levelServer.extensions, Extension.Always TokenParams WellFormed e :=
  List.forall_mem_cons.mpr ⟨always_wellFormed_inl (always_wellFormed_deflate (tokenParams_new .server)),
    List.forall_mem_singleton.mpr (always_wellFormed_inr (always_wellFormed_mirror (by decide) nofun))⟩

/-- The two agree, and on the protocol of the server. -/
theorem agreement_chat :
    (ReadsHeads lineParser ∧ ValidClient levelClient ∧
      (∀ e ∈ levelServer.extensions, Extension.Always TokenParams WellFormed e) ∧
      ∀ q ∈ some "superchat", q ∈ levelClient.protocols) ∧
    let client := { levelClient with buffer := [] }.encodeRequest (Vector.replicate 16 0)
    ∃ request server,
      { levelServer with buffer := client.buffer }.decodeRequest lineParser = (.ok request, server) ∧
      request.wsKey = client.nonce ∧ request.path = "/chat?x=1" ∧
      request.headers.host = utf8 "example.com" ∧
      let response := server.encodeResponse Sha1.sha1 (.accept request.wsKey (some "superchat"))
      ({ client with buffer := response }.decodeResponse lineParser Sha1.sha1).1 =
        .ok (.done (.accepted (some "superchat")) response.length) := by
  have hp : ∀ q ∈ some "superchat", q ∈ levelClient.protocols := by decide
  exact ⟨⟨readsHeads_lineParser, validClient_levelClient, wellFormed_levelServer, hp⟩,
    agreement readsHeads_lineParser validClient_levelClient _ wellFormed_levelServer hp⟩

/-! ## Protocols -/

section Protocols

variable {X Y : Type} [Extension X] [Extension Y] {http : Http.Parser}

theorem selectProtocols_requestHeaders {c : Client X} (hc : ValidClient c) (ps : List String)
    (nonce : Vector UInt8 16) :
    Server.selectProtocols ps (c.requestHeaders nonce) =
      if c.protocols.isEmpty then []
      else (ps.find? fun x => utf8 x == Client.joinProtocols c.protocols).toList := by
  have hfixed : eqIgnoreAsciiCase "Host" secWebSocketProtocol = false ∧
      eqIgnoreAsciiCase "Upgrade" secWebSocketProtocol = false ∧
      eqIgnoreAsciiCase "Connection" secWebSocketProtocol = false ∧
      eqIgnoreAsciiCase "Sec-WebSocket-Key" secWebSocketProtocol = false ∧
      eqIgnoreAsciiCase secWebSocketExtensions secWebSocketProtocol = false ∧
      eqIgnoreAsciiCase "Sec-WebSocket-Version" secWebSocketProtocol = false := by decide
  have hself : eqIgnoreAsciiCase secWebSocketProtocol secWebSocketProtocol = true := by
    decide
  have hown : (c.headers.filter fun h => eqIgnoreAsciiCase h.name secWebSocketProtocol) = [] := by
    rw [List.filter_eq_nil_iff]
    intro h hh
    rw [hc.protocolName h hh]
    exact Bool.false_ne_true
  have hext : ((offerHeaders c.extensions).filter fun h =>
      eqIgnoreAsciiCase h.name secWebSocketProtocol) = [] := by
    unfold offerHeaders
    split_ifs
    · rfl
    · simp [hfixed]
  rw [Server.selectProtocols, Client.requestHeaders]
  simp only [List.filter_append, hown, hext]
  split_ifs
  · simp [hfixed]
  · simp only [List.filter_cons, hfixed, hself, List.filter_nil, Bool.false_eq_true, if_false, if_true,
      List.nil_append, List.append_nil, List.filterMap_cons, List.filterMap_nil]
    cases ps.find? fun x => utf8 x == Client.joinProtocols c.protocols <;> rfl

theorem comma_mem_joinProtocols {p q : String} (ps : List String) :
    44 ∈ Client.joinProtocols (p :: q :: ps) := by
  have hcomma : utf8 "," = [44] := by decide
  simp [Client.joinProtocols, hcomma]

/-- **What the server finds of several protocols.** It is what both have if and only if that is
nothing and the server has no protocol that reads like all of the client's. -/
theorem select_eq_filter_iff {ps ts : List String} (hps : ∀ p ∈ ps, IsToken p) :
    (if ps.isEmpty then [] else (ts.find? fun x => utf8 x == Client.joinProtocols ps).toList) =
      ps.filter (· ∈ ts) ↔
    ps.length ≤ 1 ∨ (∀ p ∈ ps, p ∉ ts) ∧ ∀ x ∈ ts, utf8 x ≠ Client.joinProtocols ps := by
  match ps with
  | [] => simp
  | [p] =>
    by_cases hp : p ∈ ts
    · simp [Client.joinProtocols, find_utf8 hp, hp]
    · have hnone : (ts.find? fun x => utf8 x == utf8 p) = none := by
        rw [List.find?_eq_none]
        intro x hx hxp
        rw [beq_iff_eq] at hxp
        exact hp (utf8_injective hxp ▸ hx)
      simp [Client.joinProtocols, hnone, hp]
  | p :: q :: ps =>
    have hjoin : ∀ x ∈ p :: q :: ps, utf8 x ≠ Client.joinProtocols (p :: q :: ps) := by
      intro x hx hxj
      have hcomma := comma_mem_joinProtocols (p := p) (q := q) ps
      rw [← hxj] at hcomma
      exact (hps x hx).not_mem (by decide) hcomma
    have hselect : ∀ o : Option String, (if (p :: q :: ps).isEmpty then [] else o.toList) = o.toList :=
      fun _ => rfl
    rw [hselect]
    constructor
    · intro h
      right
      cases hfind : ts.find? fun x => utf8 x == Client.joinProtocols (p :: q :: ps) with
      | none =>
        rw [hfind, Option.toList_none, eq_comm, List.filter_eq_nil_iff] at h
        refine ⟨fun x hx => by simpa using h x hx, ?_⟩
        simpa using List.find?_eq_none.mp hfind
      | some x =>
        rw [hfind, Option.toList_some] at h
        have hx : x ∈ p :: q :: ps := (List.mem_filter.mp (h ▸ List.mem_singleton.mpr rfl)).1
        have hxj : utf8 x = Client.joinProtocols (p :: q :: ps) := by
          simpa using List.find?_some hfind
        exact absurd hxj (hjoin x hx)
    · rintro (hlen | ⟨hno, hj⟩)
      · simp at hlen
      · have hfind : (ts.find? fun x => utf8 x == Client.joinProtocols (p :: q :: ps)) = none := by
          rw [List.find?_eq_none]
          simpa using hj
        rw [hfind, Option.toList_none, eq_comm, List.filter_eq_nil_iff]
        simpa using hno

/-- **Protocols reach the server** if and only if there is at most one of them, or neither one of
them nor all of them with commas in between is one of the server's. -/
theorem protocols_iff (hhttp : ReadsHeads http) {c : Client X} (hc : ValidClient c)
    (nonce : Vector UInt8 16) {s : Server Y}
    (hs : ∀ e ∈ s.extensions, Extension.Always TokenParams WellFormed e) :
    (∃ request server, { s with
        buffer := ({ c with buffer := [] }.encodeRequest nonce).buffer }.decodeRequest http =
          (.ok request, server) ∧
      request.protocols = c.protocols.filter (· ∈ s.protocols)) ↔
    c.protocols.length ≤ 1 ∨ (∀ p ∈ c.protocols, p ∉ s.protocols) ∧
      ∀ x ∈ s.protocols, utf8 x ≠ Client.joinProtocols c.protocols := by
  obtain ⟨origin, extensions, hdecode, -⟩ := decodeRequest_encodeRequest hhttp hc nonce
    (s := { s with buffer := ({ c with buffer := [] }.encodeRequest nonce).buffer }) hs rfl
  rw [hdecode, ← select_eq_filter_iff hc.protocols, ← selectProtocols_requestHeaders hc _ nonce]
  constructor
  · rintro ⟨request, server, heq, hp⟩
    cases heq
    exact hp
  · exact fun hp => ⟨_, _, rfl, hp⟩

/-- The protocol of the server is found in a request with that protocol only. -/
theorem protocols_single :
    (ReadsHeads lineParser ∧ ValidClient (chatClient ["superchat"]) ∧
      ∀ e ∈ chatServer.extensions, Extension.Always TokenParams WellFormed e) ∧
    ∃ request server, { chatServer with
        buffer := ({ chatClient ["superchat"] with buffer := [] }.encodeRequest
          (Vector.replicate 16 0)).buffer }.decodeRequest lineParser = (.ok request, server) ∧
      request.protocols = ["superchat"].filter (· ∈ ["superchat"]) := by
  have hc : ValidClient (chatClient ["superchat"]) := validClient_chatClient (by decide)
  exact ⟨⟨readsHeads_lineParser, hc, wellFormed_chatServer⟩,
    (protocols_iff readsHeads_lineParser hc _ wellFormed_chatServer).mpr (Or.inl (by decide))⟩

/-- The server does not find its protocol among two of the client's. -/
theorem not_protocols :
    ¬ ∀ (http : Http.Parser) (c : Client (Deflate .stored)) (s : Server (Deflate .stored))
      (nonce : Vector UInt8 16), ReadsHeads http → ValidClient c → c.protocols.Nodup →
      (∀ e ∈ s.extensions, Extension.Always TokenParams WellFormed e) →
      ∃ request server, { s with
          buffer := ({ c with buffer := [] }.encodeRequest nonce).buffer }.decodeRequest http =
            (.ok request, server) ∧
        request.protocols = c.protocols.filter (· ∈ s.protocols) := by
  intro h
  have hc : ValidClient (chatClient ["chat", "superchat"]) := validClient_chatClient (by decide)
  obtain ⟨request, server, hdecode, hp⟩ := h lineParser _ chatServer (Vector.replicate 16 0)
    readsHeads_lineParser hc (show ["chat", "superchat"].Nodup by decide)
    wellFormed_chatServer
  obtain ⟨origin, extensions, hdecode', -⟩ := decodeRequest_encodeRequest readsHeads_lineParser
    hc (Vector.replicate 16 0) (s := { chatServer with
      buffer := ({ chatClient ["chat", "superchat"] with buffer := [] }.encodeRequest
        (Vector.replicate 16 0)).buffer })
    wellFormed_chatServer rfl
  rw [hdecode'] at hdecode
  cases hdecode
  dsimp only at hp
  rw [selectProtocols_requestHeaders hc] at hp
  revert hp
  decide

end Protocols

end Soketto.Handshake
