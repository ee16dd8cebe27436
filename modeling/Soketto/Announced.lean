import Soketto.TwoServers

/-!
# Extensions in responses

A response names the extensions that client and server are going to use.

* `Unsolicited`: a response that is valid but for an extension that the client did not offer;
  **`accepted_of_unsolicited`**: the client accepts it.
* `AnnouncesAlike`: the two servers tell of their extensions alike; **`announcesAlike_iff`**: when they
  do.
-/

set_option autoImplicit false

namespace Soketto.Handshake

open Text

variable {E : Type} [Extension E] {sha1 : List UInt8 → Vector UInt8 20}

/-! ## What the client did not offer -/

/-- A response that accepts the client's request, as far as it is no matter of which extensions it
names. -/
structure OtherwiseValid (sha1 : List UInt8 → Vector UInt8 20) (c : Client E)
    (response : Http.Response) : Prop where
  version : response.version = some 1
  code : response.code = some 101
  upgrade : HasToken response.headers "Upgrade" "websocket"
  connection : HasToken response.headers "Connection" "upgrade"
  accept : HeaderMap.get response.headers "Sec-WebSocket-Accept" =
    some (base64 (sha1 (c.nonce.toList ++ KEY)).toList)
  extensions : (configureHeaders c.extensions response.headers).1 = .ok ()
  protocol : ∀ v, HeaderMap.get response.headers secWebSocketProtocol = some v →
    ∃ p ∈ c.protocols, utf8 p = v

/-- Somewhere in the headers stands an extension that is none of these. -/
def NamesOther (es : List E) (headers : List Http.Header) : Prop :=
  ∃ h ∈ headers, eqIgnoreAsciiCase h.name secWebSocketExtensions = true ∧
    ∃ text, fromUtf8 h.value = some text ∧
      ∃ offer ∈ parseOffers text, ∀ e ∈ es, eqIgnoreAsciiCase (Extension.name e) offer.name = false

/-- The response is valid, but for an extension that the client did not offer. -/
structure Unsolicited (sha1 : List UInt8 → Vector UInt8 20) (c : Client E)
    (response : Http.Response) : Prop extends OtherwiseValid sha1 c response where
  names : NamesOther c.extensions response.headers

theorem coversHeaders_ne_unsolicited : CoversHeaders (· ≠ .unsolicitedExtension) :=
  ⟨by simp, by simp, by simp, by simp⟩

section Client

variable {http : Http.Parser} {c : Client E} {response : Http.Response}

theorem checkAccepted_ne_unsolicited (sha1 : List UInt8 → Vector UInt8 20) (c : Client E)
    (headers : List Http.Header) :
    FailsWith (· ≠ .unsolicitedExtension) (c.checkAccepted sha1 headers).1 := by
  have hp := coversHeaders_ne_unsolicited
  unfold Client.checkAccepted
  dsimp only
  split
  · next e hchecked =>
    refine FailsWith.pass ?_ hchecked
    refine (failsWith_expectAsciiHeader hp _ _ _).bind fun _ => ?_
    refine (failsWith_expectAsciiHeader hp _ _ _).bind fun _ => ?_
    refine failsWith_withFirstHeader hp fun v => ?_
    split_ifs
    · exact failsWith_error (by simp)
    · exact failsWith_ok ()
  · have hconf := failsWith_configureHeaders hp c.extensions headers
    split
    · next heq => exact hconf.pass (congrArg Prod.fst heq)
    · split
      · exact failsWith_ok _
      · split
        · exact failsWith_ok _
        · exact failsWith_error (by simp)

/-- The error that is there for extensions that were not offered is never returned. -/
theorem decodeResponse_ne_unsolicited :
    FailsWith (· ≠ .unsolicitedExtension) (c.decodeResponse http sha1).1 := by
  unfold Client.decodeResponse
  split
  · exact failsWith_error (by simp)
  · exact failsWith_ok _
  · next response offset _ =>
    split_ifs
    · exact failsWith_error (by simp)
    · have hchecked := checkAccepted_ne_unsolicited sha1 c response.headers
      split
      · next heq => exact hchecked.pass (congrArg Prod.fst heq)
      · exact failsWith_ok _
    · dsimp only
      split_ifs
      · refine FailsWith.map (failsWith_withFirstHeader coversHeaders_ne_unsolicited fun v => ?_) _
        split
        · exact failsWith_ok _
        · exact failsWith_error (by simp)
      · exact failsWith_ok _

theorem OtherwiseValid.checkAccepted (h : OtherwiseValid sha1 c response) :
    ∃ p, (c.checkAccepted sha1 response.headers).1 = .ok p := by
  have hupgrade := expectAsciiHeader_iff.mpr h.upgrade
  have hconnection := expectAsciiHeader_iff.mpr h.connection
  unfold Client.checkAccepted
  simp only [hupgrade, hconnection, withFirstHeader_of_get h.accept, ne_eq, not_true_eq_false,
    if_false]
  cases hconf : configureHeaders c.extensions response.headers with
  | mk result es =>
    have hok : result = .ok () := by
      have hext := h.extensions
      rw [hconf] at hext
      exact hext
    subst hok
    cases hfind : response.headers.find? fun h => eqIgnoreAsciiCase h.name secWebSocketProtocol with
    | none => exact ⟨none, rfl⟩
    | some tp =>
      obtain ⟨p, hp, hvalue⟩ := h.protocol tp.value (by rw [HeaderMap.get, hfind]; rfl)
      have hproto : (c.protocols.find? fun x => utf8 x == tp.value) = some p :=
        hvalue ▸ find_utf8 hp
      refine ⟨some p, ?_⟩
      dsimp only
      rw [hproto]
      rfl

theorem OtherwiseValid.decodeResponse (h : OtherwiseValid sha1 c response) {offset : ℕ}
    (hparse : http.response c.buffer = .ok (.complete response offset)) :
    ∃ p, (c.decodeResponse http sha1).1 = .ok (.done (.accepted p) offset) := by
  obtain ⟨p, hp⟩ := h.checkAccepted
  refine ⟨p, ?_⟩
  rw [Client.decodeResponse, hparse]
  dsimp only
  rw [if_neg (not_not.mpr h.version), if_pos h.code]
  rcases hc : c.checkAccepted sha1 response.headers with ⟨result, c'⟩
  rw [hc] at hp
  dsimp only at hp
  subst hp
  rfl

/-- **A response with an extension that was not offered is accepted**, and not refused with the
error that is there for it. -/
theorem accepted_of_unsolicited {offset : ℕ}
    (hparse : http.response c.buffer = .ok (.complete response offset))
    (h : Unsolicited sha1 c response) :
    (c.decodeResponse http sha1).1 ≠ .error .unsolicitedExtension ∧
      ∃ p, (c.decodeResponse http sha1).1 = .ok (.done (.accepted p) offset) :=
  ⟨fun he => decodeResponse_ne_unsolicited _ he rfl, h.decodeResponse hparse⟩

end Client

/-- The headers of a response that names an extension the client does not know. -/
def bzipHeaders : List Http.Header :=
  [⟨"Upgrade", utf8 "websocket"⟩, ⟨"Connection", utf8 "Upgrade"⟩,
    ⟨"Sec-WebSocket-Accept", base64 (Sha1.sha1 ((chatClient []).nonce.toList ++ KEY)).toList⟩,
    ⟨secWebSocketExtensions, utf8 "permessage-bzip2"⟩]

/-- A client with deflate that has read the response. -/
def bzipClient : Client (Deflate .stored) :=
  { chatClient [] with buffer := responseHead 101 (utf8 "Switching Protocols") bzipHeaders }

theorem parses_bzipHeaders :
    lineParser.response bzipClient.buffer =
      .ok (.complete ⟨some 1, some 101, bzipHeaders⟩ bzipClient.buffer.length) := by
  have hphrase : ∀ b ∈ utf8 "Switching Protocols", isValueByte b = true :=
    List.all_eq_true.mp (by decide)
  have hvalid : ∀ h ∈ bzipHeaders, ValidHeader h := by
    intro h hh
    simp only [bzipHeaders, List.mem_cons, List.not_mem_nil, or_false] at hh
    rcases hh with rfl | rfl | rfl | rfl
    · exact .of_token (by decide) (by decide)
    · exact .of_token (by decide) (by decide)
    · exact .of_value (by decide) (isVisible_base64 _).isValue
    · exact .of_token (by decide) (by decide)
  exact readsHeads_lineParser.response (by decide) hphrase hvalid (show 4 ≤ 32 by decide)

theorem unsolicited_bzipHeaders :
    Unsolicited Sha1.sha1 bzipClient ⟨some 1, some 101, bzipHeaders⟩ where
  version := rfl
  code := rfl
  upgrade := ⟨⟨"Upgrade", utf8 "websocket"⟩, by simp [bzipHeaders], by decide, "websocket",
    fromUtf8_utf8 _, by decide⟩
  connection := ⟨⟨"Connection", utf8 "Upgrade"⟩, by simp [bzipHeaders], by decide, "Upgrade",
    fromUtf8_utf8 _, by decide⟩
  accept := by
    have hother : eqIgnoreAsciiCase "Upgrade" "Sec-WebSocket-Accept" = false ∧
        eqIgnoreAsciiCase "Connection" "Sec-WebSocket-Accept" = false ∧
        eqIgnoreAsciiCase "Sec-WebSocket-Accept" "Sec-WebSocket-Accept" = true := by decide
    have hnonce : bzipClient.nonce = (chatClient []).nonce := rfl
    simp only [HeaderMap.get, bzipHeaders, List.find?_cons, hother, hnonce, Option.map_some]
  extensions := by
    have hother : eqIgnoreAsciiCase "Upgrade" secWebSocketExtensions = false ∧
        eqIgnoreAsciiCase "Connection" secWebSocketExtensions = false ∧
        eqIgnoreAsciiCase "Sec-WebSocket-Accept" secWebSocketExtensions = false ∧
        eqIgnoreAsciiCase secWebSocketExtensions secWebSocketExtensions = true := by decide
    have hnone : (configureExtensions bzipClient.extensions "permessage-bzip2").1 = .ok () := by
      decide
    simp only [bzipHeaders, configureHeaders, hother, Bool.false_eq_true, if_false, if_true,
      fromUtf8_utf8]
    rcases hc : configureExtensions bzipClient.extensions "permessage-bzip2" with ⟨result, es⟩
    rw [hc] at hnone
    dsimp only at hnone
    subst hnone
    rfl
  protocol := by
    have hother : eqIgnoreAsciiCase "Upgrade" secWebSocketProtocol = false ∧
        eqIgnoreAsciiCase "Connection" secWebSocketProtocol = false ∧
        eqIgnoreAsciiCase "Sec-WebSocket-Accept" secWebSocketProtocol = false ∧
        eqIgnoreAsciiCase secWebSocketExtensions secWebSocketProtocol = false := by decide
    intro v hv
    simp [HeaderMap.get, bzipHeaders, hother] at hv
  names := ⟨⟨secWebSocketExtensions, utf8 "permessage-bzip2"⟩, by simp [bzipHeaders], by decide,
    "permessage-bzip2", fromUtf8_utf8 _, ⟨"permessage-bzip2", []⟩, by decide, by decide⟩

/-- The client accepts the response. -/
theorem accepted_bzipHeaders :
    Unsolicited Sha1.sha1 bzipClient ⟨some 1, some 101, bzipHeaders⟩ ∧
      (bzipClient.decodeResponse lineParser Sha1.sha1).1 ≠ .error .unsolicitedExtension ∧
      ∃ p, (bzipClient.decodeResponse lineParser Sha1.sha1).1 =
        .ok (.done (.accepted p) bzipClient.buffer.length) :=
  ⟨unsolicited_bzipHeaders, accepted_of_unsolicited parses_bzipHeaders unsolicited_bzipHeaders⟩

/-- Not all responses with an extension that was not offered are refused. -/
theorem not_refused :
    ¬∀ (http : Http.Parser) (sha1 : List UInt8 → Vector UInt8 20) (c : Client (Deflate .stored))
      (response : Http.Response) (offset : ℕ),
      http.response c.buffer = .ok (.complete response offset) → Unsolicited sha1 c response →
      (c.decodeResponse http sha1).1 = .error .unsolicitedExtension := by
  intro h
  have he := h _ _ _ _ _ parses_bzipHeaders unsolicited_bzipHeaders
  exact decodeResponse_ne_unsolicited _ he rfl

/-! ## What the servers tell -/

/-- The values of the header for extensions. -/
def extensionValues (headers : HeaderMap) : List (List UInt8) :=
  HeaderMap.getAll headers secWebSocketExtensions

/-- The response of the server for HTTP requests tells of these extensions if some is enabled, with the
bytes that the other server adds to its response for them, and not with an empty value. -/
structure AnnouncesAlike (sha1 : List UInt8 → Vector UInt8 20) (es : List E) (r : HttpResponse) :
    Prop where
  present : (HeaderMap.get r.headers secWebSocketExtensions).isSome = true ↔
    ∃ e ∈ es, Extension.isEnabled e = true
  value : ∀ (s : Server E) (key : WebSocketKey) (protocol : Option String), s.extensions = es →
    ∃ bs, ({ s with extensions := [] } : Server E).encodeResponse sha1 (.accept key protocol) =
        bs ++ utf8 "\r\n\r\n" ∧
      s.encodeResponse sha1 (.accept key protocol) =
        bs ++ (extensionValues r.headers).flatMap (utf8 "\r\nSec-WebSocket-Extensions: " ++ ·) ++
          utf8 "\r\n\r\n"
  notEmpty : ∀ v ∈ extensionValues r.headers, v ≠ []

/-- There is something to tell of these extensions, if there are any: some are enabled, and they are
not a single one without name and parameters. -/
def HasNews (es : List E) : Prop :=
  es = [] ∨ (∃ e ∈ es, Extension.isEnabled e = true) ∧
    ∀ e, es.filter Extension.isEnabled = [e] → Extension.name e ≠ "" ∨ Extension.params e ≠ []

theorem utf8_eq_nil_iff {s : String} : utf8 s = [] ↔ s = "" := by
  constructor
  · intro h
    by_contra hne
    exact utf8_ne_nil hne h
  · rintro rfl
    decide

theorem extensionBytes_eq_nil_iff {e : E} :
    extensionBytes e = [] ↔ Extension.name e = "" ∧ Extension.params e = [] := by
  rw [extensionBytes, List.append_eq_nil_iff, utf8_eq_nil_iff]
  have hparam : ∀ p : Param, paramBytes p ≠ [] := by
    intro p
    simp [paramBytes, show utf8 "; " = [59, 32] by decide]
  cases Extension.params e with
  | nil => simp
  | cons p ps => simp [hparam p]

theorem appendExtensionHeaderValue_eq_nil_iff {es : List E} :
    appendExtensionHeaderValue es = [] ↔
      es = [] ∨ ∃ e, es = [e] ∧ Extension.name e = "" ∧ Extension.params e = [] := by
  cases es with
  | nil => simp [appendExtensionHeaderValue]
  | cons e es =>
    cases es with
    | nil => simp [appendExtensionHeaderValue, extensionBytes_eq_nil_iff]
    | cons e' es =>
      simp [appendExtensionHeaderValue, show utf8 ", " = [44, 32] by decide]

theorem extensionValues_responseHeaders (sha1 : List UInt8 → Vector UInt8 20) (key : WebSocketKey)
    (es : List E) :
    extensionValues (HttpServer.responseHeaders sha1 key es) =
      if es.isEmpty then [] else [appendExtensionHeaderValue (es.filter Extension.isEnabled)] := by
  have hother : eqIgnoreAsciiCase "connection" secWebSocketExtensions = false ∧
      eqIgnoreAsciiCase "upgrade" secWebSocketExtensions = false ∧
      eqIgnoreAsciiCase "Sec-WebSocket-Accept" secWebSocketExtensions = false ∧
      eqIgnoreAsciiCase secWebSocketExtensions secWebSocketExtensions = true := by decide
  cases es with
  | nil => simp [extensionValues, HeaderMap.getAll, HttpServer.responseHeaders, hother]
  | cons e es => simp [extensionValues, HeaderMap.getAll, HttpServer.responseHeaders, hother]

theorem isSome_get_iff (headers : HeaderMap) (name : String) :
    (HeaderMap.get headers name).isSome = true ↔ HeaderMap.getAll headers name ≠ [] := by
  simp [HeaderMap.get, HeaderMap.getAll, List.find?_isSome]

theorem encodeResponse_extensions (sha1 : List UInt8 → Vector UInt8 20) (s : Server E)
    (key : WebSocketKey) (protocol : Option String) :
    ∃ bs, ({ s with extensions := [] } : Server E).encodeResponse sha1 (.accept key protocol) =
        bs ++ utf8 "\r\n\r\n" ∧
      s.encodeResponse sha1 (.accept key protocol) =
        bs ++ appendExtensions (s.extensions.filter Extension.isEnabled) ++ utf8 "\r\n\r\n" := by
  refine ⟨_, ?_, rfl⟩
  simp [Server.encodeResponse, appendExtensions]

theorem hasNews_iff {es : List E} (hne : es ≠ []) :
    HasNews es ↔ appendExtensionHeaderValue (es.filter Extension.isEnabled) ≠ [] := by
  rw [HasNews, or_iff_right hne, ne_eq, appendExtensionHeaderValue_eq_nil_iff, not_or]
  refine and_congr ?_ ?_
  · simp
  · push Not
    exact forall₂_congr fun e _ => not_and_or.symm.trans not_and

/-- **The servers tell of their extensions alike** if and only if there are none or there is something
to tell. -/
theorem announcesAlike_iff {isHeaderValue : List UInt8 → Bool} {t t' : HttpServer E}
    {request : Http.Request} {r : HttpResponse}
    (h : t.receiveRequest sha1 isHeaderValue request = some (.ok r, t')) :
    AnnouncesAlike sha1 t'.extensions r ↔
      HasNews (configureHeaders t.extensions request.headers).2 := by
  obtain ⟨key, es, -, hconf, -, rfl, rfl⟩ := (HttpServer.receiveRequest_ok_iff _ _ _ _).mp h
  have hvalues := extensionValues_responseHeaders sha1 key es
  rw [hconf]
  dsimp only
  by_cases hnil : es = []
  · subst hnil
    refine iff_of_true ⟨?_, ?_, ?_⟩ (.inl rfl)
    · rw [isSome_get_iff, ← extensionValues, hvalues]
      simp
    · rintro s key' protocol hs
      rw [hvalues]
      obtain ⟨bs, hbs, heq⟩ := encodeResponse_extensions sha1 s key' protocol
      refine ⟨bs, hbs, ?_⟩
      rw [heq, hs]
      rfl
    · rw [hvalues]
      simp
  · rw [if_neg (by simpa using hnil)] at hvalues
    rw [hasNews_iff hnil]
    constructor
    · intro ha
      exact ha.notEmpty _ (by rw [hvalues]; exact List.mem_singleton_self _)
    · intro hnews
      have hfilter : es.filter Extension.isEnabled ≠ [] := by
        intro hf
        rw [hf] at hnews
        exact hnews rfl
      refine ⟨?_, ?_, ?_⟩
      · rw [isSome_get_iff, ← extensionValues, hvalues]
        simpa using hfilter
      · rintro s key' protocol hs
        obtain ⟨bs, hbs, heq⟩ := encodeResponse_extensions sha1 s key' protocol
        refine ⟨bs, hbs, ?_⟩
        rw [heq, hs, hvalues, appendExtensions, if_neg (by simpa using hfilter)]
        simp
      · rw [hvalues]
        simpa using hnews

/-- A request with an offer of deflate. -/
theorem announcesAlike_deflate :
    ∃ r t', upgradeHttpServer.receiveRequest Sha1.sha1 (fun bs => bs.all isValueByte)
        (upgradeRequest "GET") = some (.ok r, t') ∧ AnnouncesAlike Sha1.sha1 t'.extensions r := by
  have haccepts : ∃ r t', upgradeHttpServer.receiveRequest Sha1.sha1 (fun bs => bs.all isValueByte)
      (upgradeRequest "GET") = some (.ok r, t') :=
    (http_accepts_iff isValueByte_of_isVisible).mpr
      ⟨acceptable_upgradeHeaders, passesHttp_upgradeHeaders⟩
  obtain ⟨r, t', h⟩ := haccepts
  have hnews : HasNews (configureHeaders upgradeHttpServer.extensions upgradeHeaders).2 :=
    .inr ⟨by decide, fun _ _ => .inl (show "permessage-deflate" ≠ "" by decide)⟩
  exact ⟨r, t', h, (announcesAlike_iff h).mpr hnews⟩

/-- The request without its offer. -/
def quietRequest : Http.Request := ⟨some "GET", some "/chat", some 1, upgradeHeaders.dropLast⟩

/-- The server's deflate was not asked for, and the response has an empty value. -/
theorem not_announcesAlike :
    ∃ r t', upgradeHttpServer.receiveRequest Sha1.sha1 (fun bs => bs.all isValueByte)
        quietRequest = some (.ok r, t') ∧ extensionValues r.headers = [[]] ∧
      ¬AnnouncesAlike Sha1.sha1 t'.extensions r := by
  have hacceptable : Acceptable upgradeHttpServer.extensions quietRequest.headers :=
    ⟨⟨utf8 "dGhlIHNhbXBsZSBub25jZQ==", by decide, by decide⟩, by decide⟩
  have hpasses : PassesHttp (fun bs => bs.all isValueByte) upgradeHttpServer.extensions
      quietRequest.headers := ⟨by decide, by decide, by decide, by decide⟩
  have haccepts : ∃ r t', upgradeHttpServer.receiveRequest Sha1.sha1 (fun bs => bs.all isValueByte)
      quietRequest = some (.ok r, t') :=
    (http_accepts_iff isValueByte_of_isVisible).mpr ⟨hacceptable, hpasses⟩
  obtain ⟨r, t', h⟩ := haccepts
  obtain ⟨key, es, -, hconf, -, rfl, rfl⟩ := (HttpServer.receiveRequest_ok_iff _ _ _ _).mp h
  have hes : es = [.new .server] := (congrArg Prod.snd hconf).symm.trans rfl
  have hempty : extensionValues (HttpServer.responseHeaders Sha1.sha1 key es) = [[]] := by
    rw [extensionValues_responseHeaders, hes]
    rfl
  refine ⟨_, _, h, hempty, fun ha => ha.notEmpty [] ?_ rfl⟩
  rw [hempty]
  exact List.mem_singleton_self _

end Soketto.Handshake
