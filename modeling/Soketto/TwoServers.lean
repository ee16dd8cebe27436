import Soketto.Agreement
import Soketto.Handshake.Failures
import Soketto.Handshake.Http

/-!
# The two servers

A request may be given to the server that parses it, or, parsed before, to the server for HTTP
requests.

* `HasToken`, **`expectAsciiHeader_iff`**: finding a token in headers.
* `Server.checkRequest_ok_iff`, `HttpServer.receiveRequest_ok_iff`: what either server accepts.
* `Differs`: the requests that only one of them accepts.
* **`same_decision_iff`**: on all others they agree.
-/

set_option autoImplicit false

namespace Soketto.Handshake

open Text

/-! ## Tokens -/

section Tokens

variable {headers : List Http.Header} {name ours : String}

/-- The value is a text with this token. -/
def ValueHas (ours : String) (v : List UInt8) : Prop :=
  ∃ text, fromUtf8 v = some text ∧ hasToken text ours = true

/-- Some header of the name has a value with this token. -/
def HasToken (headers : List Http.Header) (name ours : String) : Prop :=
  ∃ h ∈ headers, eqIgnoreAsciiCase h.name name = true ∧ ValueHas ours h.value

theorem expectStep_iff (r : Except Error State) (h : Http.Header) :
    expectStep ours r h = .ok .found ↔ r = .ok .found ∨ ValueHas ours h.value := by
  unfold expectStep ValueHas
  split_ifs with hr
  · simp [hr]
  · rcases fromUtf8 h.value with _ | text
    · simp [hr]
    · by_cases ht : hasToken text ours = true
      · simp [ht]
      · simp [ht, hr]

theorem foldl_expectStep_iff (headers : List Http.Header) (r : Except Error State) :
    headers.foldl (expectStep ours) r = .ok .found ↔
      r = .ok .found ∨ ∃ h ∈ headers, ValueHas ours h.value := by
  induction headers generalizing r with
  | nil => simp
  | cons h headers ih =>
    rw [List.foldl_cons, ih, expectStep_iff, or_assoc, List.exists_mem_cons_iff]

/-- **A token is found** if and only if some header of the name is a text with it. -/
theorem expectAsciiHeader_iff :
    expectAsciiHeader headers name ours = .ok () ↔ HasToken headers name ours := by
  have hfold : (headers.filter fun h => eqIgnoreAsciiCase h.name name).foldl (expectStep ours)
      (.ok .init) = .ok .found ↔ _ := foldl_expectStep_iff _ (.ok .init)
  have hmem : (∃ h ∈ headers.filter fun h => eqIgnoreAsciiCase h.name name, ValueHas ours h.value) ↔
      HasToken headers name ours := by
    simp [HasToken, List.mem_filter, and_assoc]
  rw [hmem] at hfold
  unfold expectAsciiHeader
  cases h : (headers.filter fun h => eqIgnoreAsciiCase h.name name).foldl (expectStep ours)
      (.ok .init) with
  | error e => simpa [h] using hfold
  | ok state => cases state <;> simpa [h] using hfold

end Tokens

/-! ## The server that parses requests -/

theorem bind_eq_ok {α β : Type} {x : Except Error α} {f : α → Except Error β} {b : β} :
    x >>= f = .ok b ↔ ∃ a, x = .ok a ∧ f a = .ok b := by
  cases x with
  | error e =>
    constructor
    · intro h
      cases h
    · rintro ⟨a, ha, -⟩
      cases ha
  | ok a =>
    constructor
    · exact fun h => ⟨a, rfl, h⟩
    · rintro ⟨_, ⟨⟩, h⟩
      exact h

theorem withFirstHeader_of_get {α : Type} {headers : List Http.Header} {name : String} {v : List UInt8}
    (h : HeaderMap.get headers name = some v) (f : List UInt8 → Except Error α) :
    withFirstHeader headers name f = f v := by
  obtain ⟨x, hx, rfl⟩ := Option.map_eq_some_iff.mp h
  exact withFirstHeader_of_find hx

theorem withFirstHeader_iff {α : Type} {headers : List Http.Header} {name : String}
    {f : List UInt8 → Except Error α} {a : α} :
    withFirstHeader headers name f = .ok a ↔
      ∃ v, HeaderMap.get headers name = some v ∧ f v = .ok a := by
  unfold withFirstHeader HeaderMap.get
  cases headers.find? fun h => eqIgnoreAsciiCase h.name name <;> simp

section Server

variable {E : Type} [Extension E]

/-- **What the server that parses requests accepts.** -/
theorem Server.checkRequest_ok_iff (self : Server E) (request : Http.Request) (c : ClientRequest)
    (s' : Server E) :
    self.checkRequest request = (.ok c, s') ↔
      request.method = some "GET" ∧ request.version = some 1 ∧
      HasToken request.headers "Upgrade" "websocket" ∧
      HasToken request.headers "Connection" "upgrade" ∧
      HasToken request.headers "Sec-WebSocket-Version" "13" ∧
      ∃ host key es, HeaderMap.get request.headers "Host" = some host ∧
        (HeaderMap.get request.headers "Sec-WebSocket-Key").bind WebSocketKey.tryFrom = some key ∧
        configureHeaders self.extensions request.headers = (.ok (), es) ∧
        c = ⟨key, Server.selectProtocols self.protocols request.headers, request.path.getD "/",
          ⟨host, HeaderMap.get request.headers "Origin"⟩⟩ ∧ s' = { self with extensions := es } := by
  simp only [← expectAsciiHeader_iff]
  constructor
  · intro h
    unfold Server.checkRequest at h
    dsimp only at h
    split at h
    · cases h
    · next key hs heq =>
      split_ifs at heq with hm hv hv
      · cases heq
      · cases heq
      · cases heq
      · obtain ⟨host, hhost, heq⟩ := bind_eq_ok.mp heq
        obtain ⟨_, hu, heq⟩ := bind_eq_ok.mp heq
        obtain ⟨_, hc, heq⟩ := bind_eq_ok.mp heq
        obtain ⟨_, hver, heq⟩ := bind_eq_ok.mp heq
        obtain ⟨key', hkey, heq⟩ := bind_eq_ok.mp heq
        cases heq
        obtain ⟨k, hk, hkey⟩ := withFirstHeader_iff.mp hkey
        obtain ⟨host', hhost, hh⟩ := withFirstHeader_iff.mp hhost
        cases hh
        rcases htry : WebSocketKey.tryFrom k with _ | key₁
        · rw [htry] at hkey
          cases hkey
        · rw [htry] at hkey
          cases hkey
          rcases hconf : configureHeaders self.extensions request.headers with ⟨_ | _, es⟩
          · rw [hconf] at h
            cases h
          · rw [hconf] at h
            cases h
            exact ⟨not_not.mp hm, not_not.mp hv, hu, hc, hver, _, _, _, hhost, hk ▸ htry, rfl, rfl,
              rfl⟩
  · rintro ⟨hm, hv, hu, hc, hs, host, key, es, hhost, hkey, hconf, rfl, rfl⟩
    obtain ⟨k, hk, hkey⟩ := Option.bind_eq_some_iff.mp hkey
    unfold Server.checkRequest
    simp only [hm, hv, ne_eq, not_true_eq_false, if_false, withFirstHeader_of_get hhost, hu, hc, hs,
      withFirstHeader_of_get hk, hkey, hconf]
    rfl

end Server

/-! ## The server for HTTP requests -/

namespace HttpServer

variable {E : Type} [Extension E]

theorem upgradeKey_iff {headers : HeaderMap} {key : WebSocketKey} :
    upgradeKey headers = .ok key ↔ isUpgradeRequest headers = true ∧
      HeaderMap.get headers "Sec-WebSocket-Version" = some (utf8 "13") ∧
      (HeaderMap.get headers "Sec-WebSocket-Key").bind WebSocketKey.tryFrom = some key := by
  unfold upgradeKey
  by_cases hup : isUpgradeRequest headers = false
  · simp [hup]
  · rw [if_neg hup]
    rw [Bool.not_eq_false] at hup
    rcases HeaderMap.get headers "Sec-WebSocket-Key" with _ | k
    · simp
    · by_cases hv : HeaderMap.get headers "Sec-WebSocket-Version" = some (utf8 "13")
      · rcases htry : WebSocketKey.tryFrom k with _ | key₁ <;> simp [hup, hv, htry]
      · simp [hv]

theorem getAll_cons (h : Http.Header) (headers : List Http.Header) (name : String) :
    HeaderMap.getAll (h :: headers) name =
      if eqIgnoreAsciiCase h.name name then h.value :: HeaderMap.getAll headers name
      else HeaderMap.getAll headers name := by
  unfold HeaderMap.getAll
  rw [List.filter_cons]
  split_ifs <;> rfl

theorem configureHeaders_of_config {headers : List Http.Header} {lines : List String}
    (h : extensionConfig (HeaderMap.getAll headers secWebSocketExtensions) = .ok lines)
    (es : List E) : configureHeaders es headers = configureAll es lines := by
  induction headers generalizing lines es with
  | nil =>
    cases h
    rfl
  | cons x headers ih =>
    rw [getAll_cons] at h
    rw [configureHeaders]
    split_ifs at h ⊢
    · rw [extensionConfig] at h
      rcases htext : fromUtf8 x.value with _ | line
      · rw [htext] at h
        cases h
      · rcases hrest : extensionConfig (HeaderMap.getAll headers secWebSocketExtensions) with e | rest
        · rw [htext, hrest] at h
          cases h
        · rw [htext, hrest] at h
          cases h
          rw [configureAll]
          dsimp only
          rcases configureExtensions es line with ⟨_ | _, es₁⟩
          · rfl
          · exact ih hrest es₁
    · exact ih h es

theorem config_of_configureHeaders {headers : List Http.Header} {es es' : List E}
    (h : configureHeaders es headers = (.ok (), es')) :
    ∃ lines, extensionConfig (HeaderMap.getAll headers secWebSocketExtensions) = .ok lines := by
  induction headers generalizing es with
  | nil => exact ⟨[], rfl⟩
  | cons x headers ih =>
    rw [configureHeaders] at h
    rw [getAll_cons]
    split_ifs at h ⊢
    · rw [extensionConfig]
      rcases htext : fromUtf8 x.value with _ | line
      · rw [htext] at h
        cases h
      · rw [htext] at h
        dsimp only at h
        rcases hc : configureExtensions es line with ⟨_ | _, es₁⟩
        · rw [hc] at h
          cases h
        · rw [hc] at h
          obtain ⟨lines, hlines⟩ := ih h
          exact ⟨line :: lines, by rw [hlines]; rfl⟩
    · exact ih h

/-- **What the server for HTTP requests accepts.** -/
theorem receiveRequest_ok_iff {sha1 : List UInt8 → Vector UInt8 20} {isHeaderValue : List UInt8 → Bool}
    (self : HttpServer E) (request : Http.Request) (r : HttpResponse) (t' : HttpServer E) :
    self.receiveRequest sha1 isHeaderValue request = some (.ok r, t') ↔
      ∃ key es, upgradeKey request.headers = .ok key ∧
        configureHeaders self.extensions request.headers = (.ok (), es) ∧
        ((responseHeaders sha1 key es).all fun h => isHeaderValue h.value) = true ∧
        r = ⟨101, responseHeaders sha1 key es⟩ ∧ t' = { self with extensions := es } := by
  constructor
  · intro h
    unfold receiveRequest at h
    rcases hkey : upgradeKey request.headers with e | key
    · rw [hkey] at h
      cases h
    · rcases hconfig : extensionConfig (HeaderMap.getAll request.headers secWebSocketExtensions)
        with e | lines
      · rw [hkey, hconfig] at h
        cases h
      · rw [hkey, hconfig] at h
        dsimp only at h
        rcases hc : configureAll self.extensions lines with ⟨_ | _, es⟩
        · rw [hc] at h
          cases h
        · rw [hc] at h
          dsimp only at h
          split_ifs at h with hvalid
          cases h
          exact ⟨key, es, rfl, (configureHeaders_of_config hconfig _).trans hc, hvalid, rfl, rfl⟩
  · rintro ⟨key, es, hkey, hconf, hvalid, rfl, rfl⟩
    obtain ⟨lines, hlines⟩ := config_of_configureHeaders hconf
    rw [configureHeaders_of_config hlines] at hconf
    rw [receiveRequest, hkey, hlines]
    dsimp only
    rw [hconf]
    exact if_pos hvalid

end HttpServer

/-! ## Where the servers differ -/

section Differ

variable {E : Type} [Extension E]

/-- What both servers ask of a request alike: the key has the right length and the extensions can be
configured. -/
structure Acceptable (es : List E) (headers : HeaderMap) : Prop where
  key : ∃ v, HeaderMap.get headers "Sec-WebSocket-Key" = some v ∧ v.length = 24
  extensions : (configureHeaders es headers).1 = .ok ()

/-- What only the server for HTTP requests asks: it looks at bytes, and at the first version alone,
and it has to write the extensions into a response. -/
structure PassesHttp (isHeaderValue : List UInt8 → Bool) (es : List E) (headers : HeaderMap) :
    Prop where
  upgrade : headerContainsValue headers "upgrade" (utf8 "websocket") = true
  connection : headerContainsValue headers "connection" (utf8 "upgrade") = true
  version : HeaderMap.get headers "Sec-WebSocket-Version" = some (utf8 "13")
  response : isHeaderValue (appendExtensionHeaderValue
    ((configureHeaders es headers).2.filter Extension.isEnabled)) = true

/-- What only the server that parses requests asks: it looks at the method and at texts, and has room
for so many headers. -/
structure PassesPlain (request : Http.Request) : Prop where
  count : request.headers.length ≤ maxNumHeaders
  method : request.method = some "GET"
  upgrade : HasToken request.headers "Upgrade" "websocket"
  connection : HasToken request.headers "Connection" "upgrade"
  version : HasToken request.headers "Sec-WebSocket-Version" "13"

/-- The requests that one server accepts and the other does not. -/
inductive Differs (isHeaderValue : List UInt8 → Bool) (es : List E) (request : Http.Request) : Prop
  | onlyHttp (h : Acceptable es request.headers) (hb : PassesHttp isHeaderValue es request.headers)
      (hp : maxNumHeaders < request.headers.length ∨ request.method ≠ some "GET" ∨
        ¬HasToken request.headers "Upgrade" "websocket" ∨
        ¬HasToken request.headers "Connection" "upgrade")
  | onlyPlain (h : Acceptable es request.headers) (hp : PassesPlain request)
      (hb : headerContainsValue request.headers "upgrade" (utf8 "websocket") = false ∨
        headerContainsValue request.headers "connection" (utf8 "upgrade") = false ∨
        HeaderMap.get request.headers "Sec-WebSocket-Version" ≠ some (utf8 "13") ∨
        isHeaderValue (appendExtensionHeaderValue
          ((configureHeaders es request.headers).2.filter Extension.isEnabled)) = false)

/-- What the parser makes of the bytes of a request: the request, if there is room for its headers. -/
def Parses (http : Http.Parser) (bs : List UInt8) (request : Http.Request) : Prop :=
  if request.headers.length ≤ maxNumHeaders then
    ∃ offset, http.request bs = .ok (.complete request offset)
  else ∃ e, http.request bs = .error e

/-- Both servers accept the request or neither does, and if they do, they use the same key and leave
the extensions alike. -/
structure SameDecision (http : Http.Parser) (sha1 : List UInt8 → Vector UInt8 20)
    (isHeaderValue : List UInt8 → Bool) (t : HttpServer E) (s : Server E) (request : Http.Request) :
    Prop where
  ok : (∃ r t', t.receiveRequest sha1 isHeaderValue request = some (.ok r, t')) ↔
    ∃ c s', s.decodeRequest http = (.ok c, s')
  same : ∀ r t' c s', t.receiveRequest sha1 isHeaderValue request = some (.ok r, t') →
    s.decodeRequest http = (.ok c, s') →
      HttpServer.upgradeKey request.headers = .ok c.wsKey ∧
      HeaderMap.get r.headers "Sec-WebSocket-Accept" =
        some (generateAcceptKey sha1 c.wsKey).toList ∧
      t'.extensions = s'.extensions

theorem tryFrom_iff {v : List UInt8} :
    (∃ key, WebSocketKey.tryFrom v = some key) ↔ v.length = 24 := by
  unfold WebSocketKey.tryFrom
  by_cases h : v.length = 24
  · exact ⟨fun _ => h, fun _ => ⟨_, dif_pos h⟩⟩
  · simp [h]

omit [Extension E] in
/-- The first version is enough for the server that parses requests. -/
theorem hasToken_version {headers : HeaderMap}
    (h : HeaderMap.get headers "Sec-WebSocket-Version" = some (utf8 "13")) :
    HasToken headers "Sec-WebSocket-Version" "13" := by
  obtain ⟨x, hx, hv⟩ := Option.map_eq_some_iff.mp h
  have hname := List.find?_some (p := fun h : Http.Header =>
    eqIgnoreAsciiCase h.name "Sec-WebSocket-Version") hx
  refine ⟨x, List.mem_of_find?_eq_some hx, hname, "13", ?_, by decide⟩
  rw [hv, fromUtf8_utf8]

variable {http : Http.Parser} {sha1 : List UInt8 → Vector UInt8 20}
  {isHeaderValue : List UInt8 → Bool} {t : HttpServer E} {s : Server E} {request : Http.Request}

theorem all_responseHeaders (hvalid : ∀ bs, IsVisible bs → isHeaderValue bs = true)
    (key : WebSocketKey) (es : List E) :
    ((HttpServer.responseHeaders sha1 key es).all fun h => isHeaderValue h.value) = true ↔
      isHeaderValue (appendExtensionHeaderValue (es.filter Extension.isEnabled)) = true := by
  have hupgrade := hvalid _ (show IsToken "upgrade" by decide).isVisible
  have hwebsocket := hvalid _ (show IsToken "websocket" by decide).isVisible
  have haccept : isHeaderValue (generateAcceptKey sha1 key).toList = true :=
    hvalid _ (isVisible_base64 _)
  have hnil : isHeaderValue [] = true := hvalid [] (by simp [IsVisible])
  cases es with
  | nil => simp [HttpServer.responseHeaders, hupgrade, hwebsocket, haccept, hnil,
      appendExtensionHeaderValue]
  | cons e es => simp [HttpServer.responseHeaders, hupgrade, hwebsocket, haccept]

theorem accept_responseHeaders (key : WebSocketKey) (es : List E) :
    HeaderMap.get (HttpServer.responseHeaders sha1 key es) "Sec-WebSocket-Accept" =
      some (generateAcceptKey sha1 key).toList := by
  have hconn : eqIgnoreAsciiCase "connection" "Sec-WebSocket-Accept" = false := by decide
  have hup : eqIgnoreAsciiCase "upgrade" "Sec-WebSocket-Accept" = false := by decide
  have haccept : eqIgnoreAsciiCase "Sec-WebSocket-Accept" "Sec-WebSocket-Accept" = true := by decide
  simp [HeaderMap.get, HttpServer.responseHeaders, hconn, hup, haccept]

/-- **When the server for HTTP requests accepts.** -/
theorem http_accepts_iff (hvalid : ∀ bs, IsVisible bs → isHeaderValue bs = true) :
    (∃ r t', t.receiveRequest sha1 isHeaderValue request = some (.ok r, t')) ↔
      Acceptable t.extensions request.headers ∧
        PassesHttp isHeaderValue t.extensions request.headers := by
  constructor
  · rintro ⟨r, t', h⟩
    obtain ⟨key, es, hkey, hconf, hall, -, -⟩ := (HttpServer.receiveRequest_ok_iff _ _ _ _).mp h
    obtain ⟨hup, hver, hkey⟩ := HttpServer.upgradeKey_iff.mp hkey
    obtain ⟨v, hv, htry⟩ := Option.bind_eq_some_iff.mp hkey
    obtain ⟨hconn, hup⟩ := Bool.and_eq_true_iff.mp hup
    refine ⟨⟨⟨v, hv, tryFrom_iff.mp ⟨key, htry⟩⟩, by rw [hconf]⟩, hup, hconn, hver, ?_⟩
    rw [hconf]
    exact (all_responseHeaders hvalid key es).mp hall
  · rintro ⟨⟨⟨v, hv, hlen⟩, hconf⟩, hup, hconn, hver, hresp⟩
    obtain ⟨key, htry⟩ := tryFrom_iff.mpr hlen
    have hkey : HttpServer.upgradeKey request.headers = .ok key :=
      HttpServer.upgradeKey_iff.mpr ⟨Bool.and_eq_true_iff.mpr ⟨hconn, hup⟩, hver, by
        rw [hv]
        exact htry⟩
    exact ⟨_, _, (HttpServer.receiveRequest_ok_iff _ _ _ _).mpr ⟨key, _, hkey, Prod.ext hconf rfl,
      (all_responseHeaders hvalid key _).mpr hresp, rfl, rfl⟩⟩

theorem decodeRequest_ok_iff (hparse : Parses http s.buffer request) {c : ClientRequest}
    {s' : Server E} :
    s.decodeRequest http = (.ok c, s') ↔
      request.headers.length ≤ maxNumHeaders ∧ s.checkRequest request = (.ok c, s') := by
  unfold Parses at hparse
  unfold Server.decodeRequest
  split_ifs at hparse with hcount
  · obtain ⟨offset, hparse⟩ := hparse
    rw [hparse]
    exact (and_iff_right hcount).symm
  · obtain ⟨e, hparse⟩ := hparse
    rw [hparse]
    simp [hcount]

/-- **When the server that parses requests accepts.** -/
theorem plain_accepts_iff (hparse : Parses http s.buffer request) (hversion : request.version = some 1)
    (hhost : (HeaderMap.get request.headers "Host").isSome = true) :
    (∃ c s', s.decodeRequest http = (.ok c, s')) ↔
      Acceptable s.extensions request.headers ∧ PassesPlain request := by
  simp only [decodeRequest_ok_iff hparse, Server.checkRequest_ok_iff]
  constructor
  · rintro ⟨c, s', hcount, hm, -, hu, hc, hver, host, key, es, -, hkey, hconf, -, -⟩
    obtain ⟨v, hv, htry⟩ := Option.bind_eq_some_iff.mp hkey
    exact ⟨⟨⟨v, hv, tryFrom_iff.mp ⟨key, htry⟩⟩, by rw [hconf]⟩, hcount, hm, hu, hc, hver⟩
  · rintro ⟨⟨⟨v, hv, hlen⟩, hconf⟩, hcount, hm, hu, hc, hver⟩
    obtain ⟨key, htry⟩ := tryFrom_iff.mpr hlen
    obtain ⟨host, hhost⟩ := Option.isSome_iff_exists.mp hhost
    exact ⟨_, _, hcount, hm, hversion, hu, hc, hver, host, key, _, hhost, by rw [hv]; exact htry,
      Prod.ext hconf rfl, rfl, rfl⟩

theorem PassesHttp.passesPlain_iff {es : List E}
    (hb : PassesHttp isHeaderValue es request.headers) :
    PassesPlain request ↔ ¬(maxNumHeaders < request.headers.length ∨ request.method ≠ some "GET" ∨
      ¬HasToken request.headers "Upgrade" "websocket" ∨
      ¬HasToken request.headers "Connection" "upgrade") := by
  simp only [not_or, not_not, not_lt]
  constructor
  · exact fun hp => ⟨hp.count, hp.method, hp.upgrade, hp.connection⟩
  · rintro ⟨hcount, hmethod, hup, hconn⟩
    exact ⟨hcount, hmethod, hup, hconn, hasToken_version hb.version⟩

theorem passesHttp_iff {es : List E} {headers : HeaderMap} :
    PassesHttp isHeaderValue es headers ↔
      ¬(headerContainsValue headers "upgrade" (utf8 "websocket") = false ∨
        headerContainsValue headers "connection" (utf8 "upgrade") = false ∨
        HeaderMap.get headers "Sec-WebSocket-Version" ≠ some (utf8 "13") ∨
        isHeaderValue (appendExtensionHeaderValue
          ((configureHeaders es headers).2.filter Extension.isEnabled)) = false) := by
  simp only [not_or, not_not, Bool.not_eq_false]
  constructor
  · exact fun hb => ⟨hb.upgrade, hb.connection, hb.version, hb.response⟩
  · rintro ⟨hup, hconn, hver, hresp⟩
    exact ⟨hup, hconn, hver, hresp⟩

theorem not_differs_iff {es : List E} :
    ¬Differs isHeaderValue es request ↔ (Acceptable es request.headers →
      (PassesHttp isHeaderValue es request.headers ↔ PassesPlain request)) := by
  constructor
  · intro hdiff h
    constructor
    · intro hb
      by_contra hp
      rw [hb.passesPlain_iff, not_not] at hp
      exact hdiff (.onlyHttp h hb hp)
    · intro hp
      by_contra hb
      rw [passesHttp_iff, not_not] at hb
      exact hdiff (.onlyPlain h hp hb)
  · rintro hiff (⟨h, hb, hp⟩ | ⟨h, hp, hb⟩)
    · exact hb.passesPlain_iff.mp ((hiff h).mp hb) hp
    · exact passesHttp_iff.mp ((hiff h).mpr hp) hb

theorem same_of_ok (hparse : Parses http s.buffer request) (hext : t.extensions = s.extensions)
    {r : HttpResponse} {t' : HttpServer E} {c : ClientRequest} {s' : Server E}
    (ht : t.receiveRequest sha1 isHeaderValue request = some (.ok r, t'))
    (hs : s.decodeRequest http = (.ok c, s')) :
    HttpServer.upgradeKey request.headers = .ok c.wsKey ∧
      HeaderMap.get r.headers "Sec-WebSocket-Accept" =
        some (generateAcceptKey sha1 c.wsKey).toList ∧
      t'.extensions = s'.extensions := by
  obtain ⟨key, es, hkey, hconf, -, rfl, rfl⟩ := (HttpServer.receiveRequest_ok_iff _ _ _ _).mp ht
  obtain ⟨-, hs⟩ := (decodeRequest_ok_iff hparse).mp hs
  obtain ⟨-, -, -, -, -, host, key', es', -, hkey', hconf', rfl, rfl⟩ :=
    (Server.checkRequest_ok_iff _ _ _ _).mp hs
  rw [hext, hconf'] at hconf
  cases hconf
  have hsame : key = key' :=
    Option.some.inj ((HttpServer.upgradeKey_iff.mp hkey).2.2.symm.trans hkey')
  subst hsame
  exact ⟨hkey, accept_responseHeaders key _, rfl⟩

/-- **The two servers agree** on a request if and only if it is none of those that only one of them
accepts. -/
theorem same_decision_iff (hvalid : ∀ bs, IsVisible bs → isHeaderValue bs = true)
    (hparse : Parses http s.buffer request) (hversion : request.version = some 1)
    (hhost : (HeaderMap.get request.headers "Host").isSome = true)
    (hext : t.extensions = s.extensions) :
    SameDecision http sha1 isHeaderValue t s request ↔
      ¬Differs isHeaderValue s.extensions request := by
  have hhttp : (∃ r t', t.receiveRequest sha1 isHeaderValue request = some (.ok r, t')) ↔
      Acceptable s.extensions request.headers ∧
        PassesHttp isHeaderValue s.extensions request.headers := hext ▸ http_accepts_iff hvalid
  have hplain := plain_accepts_iff hparse hversion hhost
  rw [not_differs_iff, ← and_congr_right_iff, ← hhttp, ← hplain]
  constructor
  · exact SameDecision.ok
  · exact fun hok => ⟨hok, fun _ _ _ _ ht hs => same_of_ok hparse hext ht hs⟩

end Differ

/-! ## Two requests -/

/-- The headers of an upgrade request with an offer. -/
def upgradeHeaders : HeaderMap :=
  [⟨"Host", utf8 "example.com"⟩, ⟨"Upgrade", utf8 "websocket"⟩, ⟨"Connection", utf8 "Upgrade"⟩,
    ⟨"Sec-WebSocket-Key", utf8 "dGhlIHNhbXBsZSBub25jZQ=="⟩, ⟨"Sec-WebSocket-Version", utf8 "13"⟩,
    ⟨"Sec-WebSocket-Extensions", utf8 "permessage-deflate"⟩]

/-- The request with this method. -/
def upgradeRequest (method : String) : Http.Request :=
  ⟨some method, some "/chat", some 1, upgradeHeaders⟩

/-- A server with deflate that has read the request. -/
def upgradeServer (method : String) : Server (Deflate .stored) :=
  ⟨⟨[], [], []⟩, [], [.new .server], requestHead method "/chat" upgradeHeaders⟩

def upgradeHttpServer : HttpServer (Deflate .stored) := ⟨[.new .server], []⟩

theorem valid_upgradeHeaders : ∀ h ∈ upgradeHeaders, ValidHeader h := by
  have hkey : IsVisible (utf8 "dGhlIHNhbXBsZSBub25jZQ==") := by
    refine forall_utf8 (p := fun n => 32 < n ∧ n < 127) (List.forall_iff_forall_mem.mp ?_)
    decide
  intro h hh
  simp only [upgradeHeaders, List.mem_cons, List.not_mem_nil, or_false] at hh
  rcases hh with rfl | rfl | rfl | rfl | rfl | rfl
  · exact .of_token (by decide) (by decide)
  · exact .of_token (by decide) (by decide)
  · exact .of_token (by decide) (by decide)
  · exact .of_value (by decide) hkey.isValue
  · exact .of_token (by decide) (by decide)
  · exact .of_token (by decide) (by decide)

theorem parses_upgradeRequest {method : String} (hm : IsToken method) :
    Parses lineParser (upgradeServer method).buffer (upgradeRequest method) := by
  have hcount : (upgradeRequest method).headers.length ≤ maxNumHeaders := show 6 ≤ 32 by decide
  have htarget : IsTarget "/chat" := ⟨by decide,
    List.all_eq_true.mp (show "/chat".toList.all isTargetChar = true by decide)⟩
  rw [Parses, if_pos hcount]
  exact ⟨_, readsHeads_lineParser.request hm htarget valid_upgradeHeaders hcount⟩

theorem isValueByte_of_isVisible :
    ∀ bs, IsVisible bs → (bs.all isValueByte) = true :=
  fun _ h => List.all_eq_true.mpr h.isValue.bytes

theorem acceptable_upgradeHeaders :
    Acceptable upgradeHttpServer.extensions upgradeHeaders :=
  ⟨⟨utf8 "dGhlIHNhbXBsZSBub25jZQ==", by decide, by decide⟩, by decide⟩

theorem passesHttp_upgradeHeaders :
    PassesHttp (fun bs => bs.all isValueByte) upgradeHttpServer.extensions upgradeHeaders where
  upgrade := by decide
  connection := by decide
  version := by decide
  response := by decide

theorem passesPlain_upgradeRequest : PassesPlain (upgradeRequest "GET") where
  count := show 6 ≤ 32 by decide
  method := rfl
  upgrade := ⟨⟨"Upgrade", utf8 "websocket"⟩, by decide, by decide, "websocket", fromUtf8_utf8 _,
    by decide⟩
  connection := ⟨⟨"Connection", utf8 "Upgrade"⟩, by decide, by decide, "Upgrade", fromUtf8_utf8 _,
    by decide⟩
  version := hasToken_version (by decide)

/-- A request with the method GET. -/
theorem same_decision_iff_get :
    SameDecision lineParser Sha1.sha1 (fun bs => bs.all isValueByte) upgradeHttpServer
      (upgradeServer "GET") (upgradeRequest "GET") :=
  (same_decision_iff isValueByte_of_isVisible (parses_upgradeRequest (by decide)) rfl (by decide)
    rfl).mpr (not_differs_iff.mpr fun _ =>
      iff_of_true passesHttp_upgradeHeaders passesPlain_upgradeRequest)

/-- A request with the method POST is accepted by the server for HTTP requests only. -/
theorem not_same_decision :
    ¬∀ (http : Http.Parser) (sha1 : List UInt8 → Vector UInt8 20) (isHeaderValue : List UInt8 → Bool)
      (t : HttpServer (Deflate .stored)) (s : Server (Deflate .stored)) (request : Http.Request),
      (∀ bs, IsVisible bs → isHeaderValue bs = true) → Parses http s.buffer request →
      request.version = some 1 → (HeaderMap.get request.headers "Host").isSome = true →
      t.extensions = s.extensions → SameDecision http sha1 isHeaderValue t s request := by
  intro h
  have hparse := @parses_upgradeRequest "POST" (by decide)
  have hsame := h lineParser Sha1.sha1 _ upgradeHttpServer _ _ isValueByte_of_isVisible hparse rfl
    (by decide) rfl
  have hplain := hsame.ok.mp ((http_accepts_iff isValueByte_of_isVisible).mpr
    ⟨acceptable_upgradeHeaders, passesHttp_upgradeHeaders⟩)
  obtain ⟨-, hpass⟩ := (plain_accepts_iff hparse rfl (by decide)).mp hplain
  exact absurd hpass.method (by decide)

end Soketto.Handshake
