import Soketto.Opening
import Soketto.TwoEnds

/-!
# A session, from the handshake on

A client and a server do the handshake, and go on with the connection that comes out of it. One of them
supports no extension, so the connection has none.

* `configureHeaders_request`, `configureHeaders_response`: which extensions are configured with the
  headers of the other side.
* **`session`**: both accept, over sockets that bring all bytes in any chunks; and then each gets the
  first messages of the other, while both ends run in any order of their steps.
-/

set_option autoImplicit false

namespace Soketto.Handshake

open Text
open Chunked (Source Clean bytes)

section Offers

variable {E : Type} [Extension E]

/-- The header is one for extensions. -/
def namesExtensions (h : Http.Header) : Bool := eqIgnoreAsciiCase h.name secWebSocketExtensions

/-- **Other headers** do not configure extensions. -/
theorem configureHeaders_filter (es : List E) (headers : List Http.Header) :
    configureHeaders es headers = configureHeaders es (headers.filter namesExtensions) := by
  induction headers generalizing es with
  | nil => rfl
  | cons x headers ih =>
    by_cases hx : eqIgnoreAsciiCase x.name secWebSocketExtensions = true
    · rw [List.filter_cons_of_pos (show namesExtensions x = true from hx), configureHeaders,
        configureHeaders]
      simp only [ih]
    · rw [List.filter_cons_of_neg (show ¬namesExtensions x = true from hx), configureHeaders, if_neg hx]
      exact ih es

theorem filter_offerHeaders (es : List E) : (offerHeaders es).filter namesExtensions = offerHeaders es := by
  rw [offerHeaders]
  split_ifs
  · rfl
  · exact List.filter_cons_of_pos (show namesExtensions ⟨secWebSocketExtensions, _⟩ = true by
      simp only [namesExtensions]; decide)

theorem configureHeaders_nil (headers : List Http.Header) :
    (configureHeaders ([] : List E) headers).2 = [] := by
  have hoffers : ∀ offers, configureOffers ([] : List E) offers = (.ok (), []) := by
    intro offers
    induction offers with
    | nil => rfl
    | cons o offers ih => exact ih
  induction headers with
  | nil => rfl
  | cons x headers ih =>
    rw [configureHeaders]
    split_ifs
    · rcases fromUtf8 x.value with _ | line
      · rfl
      · dsimp only
        rw [configureExtensions, hoffers]
        exact ih
    · exact ih

/-- **The request offers the extensions** of the client, and no others. -/
theorem configureHeaders_request {X : Type} [Extension X] {c : Client X} (hc : ValidClient c)
    (nonce : Vector UInt8 16) (es : List E) :
    configureHeaders es (c.requestHeaders nonce) = configureHeaders es (offerHeaders c.extensions) := by
  have hown : c.headers.filter namesExtensions = [] :=
    List.filter_eq_nil_iff.mpr fun h hh => by simp [namesExtensions, hc.extensionsName h hh]
  have hother : namesExtensions ⟨"Host", utf8 c.host⟩ = false ∧
      (∀ v, namesExtensions ⟨"Upgrade", v⟩ = false) ∧ (∀ v, namesExtensions ⟨"Connection", v⟩ = false) ∧
      (∀ v, namesExtensions ⟨"Sec-WebSocket-Key", v⟩ = false) ∧
      (∀ v, namesExtensions ⟨secWebSocketProtocol, v⟩ = false) ∧
      ∀ v, namesExtensions ⟨"Sec-WebSocket-Version", v⟩ = false := by
    simp only [namesExtensions, forall_const]
    decide
  have hfilter : (c.requestHeaders nonce).filter namesExtensions = offerHeaders c.extensions := by
    rw [Client.requestHeaders]
    split_ifs <;> simp [hother, hown, filter_offerHeaders]
  rw [configureHeaders_filter, hfilter]

/-- **The response announces the extensions** that the server has enabled, and no others. -/
theorem configureHeaders_response {Y : Type} [Extension Y] (s : Server Y)
    (sha1 : List UInt8 → Vector UInt8 20) (key : WebSocketKey) (p : Option String) (es : List E) :
    configureHeaders es (s.responseHeaders sha1 key p) =
      configureHeaders es (offerHeaders (s.extensions.filter Extension.isEnabled)) := by
  have hother : (∀ v, namesExtensions ⟨"Server", v⟩ = false) ∧
      (∀ v, namesExtensions ⟨"Upgrade", v⟩ = false) ∧ (∀ v, namesExtensions ⟨"Connection", v⟩ = false) ∧
      (∀ v, namesExtensions ⟨"Sec-WebSocket-Accept", v⟩ = false) ∧
      ∀ v, namesExtensions ⟨secWebSocketProtocol, v⟩ = false := by
    simp only [namesExtensions, forall_const]
    decide
  have hfilter : (s.responseHeaders sha1 key p).filter namesExtensions =
      offerHeaders (s.extensions.filter Extension.isEnabled) := by
    rw [Server.responseHeaders]
    cases p <;> simp [hother, filter_offerHeaders]
  rw [configureHeaders_filter, hfilter]

theorem addExtensions_disabled (b : Builder E) {es : List E}
    (h : ∀ e ∈ es, Extension.isEnabled e = false) : b.addExtensions es = b := by
  induction es with
  | nil => rfl
  | cons e es ih =>
    have hone : b.addExtension e = b := if_neg (by simp [h e List.mem_cons_self])
    rw [Builder.addExtensions, List.foldl_cons, hone]
    exact ih fun x hx => h x (List.mem_cons_of_mem e hx)

end Offers

/-! ## The connection -/

/-- The operation does not send more than a new connection takes. -/
def Small (op : Op) : Prop := ∀ f ∈ op.frame, f.payload.length ≤ maxMessageSize.toNat

instance (op : Op) : Decidable (Small op) := inferInstanceAs (Decidable (∀ f ∈ op.frame, _))

section Connection

variable {E : Type} [Extension E] {http : Http.Parser} {sha1 : List UInt8 → Vector UInt8 20}

/-- An end of a connection that was built after a handshake without extensions. -/
structure Fresh (e : End E) (mode : Mode) (stream : List UInt8) : Prop where
  builder : ∃ reader buffer, e.builder = (Builder.new reader mode).setBuffer buffer ∧ Clean reader ∧
    buffer ++ bytes reader = stream
  small : ∀ op ∈ e.ops, Small op

variable {a b : End E} {mode mode' : Mode} {stream stream' : List UInt8}

omit [Extension E] in
theorem Fresh.plain (h : Fresh a mode stream) : a.Plain := by
  obtain ⟨⟨reader, buffer, hb, hclean, -⟩, -⟩ := h
  exact ⟨by rw [hb]; rfl, by rw [hb]; exact hclean⟩

omit [Extension E] in
theorem Fresh.stream_eq (h : Fresh a mode stream) : a.receiver.stream = stream := by
  obtain ⟨⟨reader, buffer, hb, -, hstream⟩, -⟩ := h
  rw [End.receiver, hb]
  exact hstream

omit [Extension E] in
theorem Fresh.suits (ha : Fresh a mode stream) (hb : Fresh b mode' stream') : a.Suits b := by
  obtain ⟨⟨reader, buffer, hb, -⟩, -⟩ := hb
  have hsize : b.receiver.config.maxDataSize = maxMessageSize ∧
      b.receiver.config.maxMessageSize = maxMessageSize := by
    rw [End.receiver, hb]
    exact ⟨rfl, rfl⟩
  refine ⟨fun op hop f hf => ?_, ?_⟩
  · rw [hsize.1, hsize.2]
    exact ⟨ha.small op hop f hf, fun _ => ha.small op hop f hf⟩
  · rw [hsize.1]
    decide

end Connection

/-- **A whole session.** Client and server do the handshake over sockets that bring its bytes in any
chunks; the client writes nothing more before it has the response, and one of them supports no
extension. Both accept, with the same protocol. Then both ends of the connection run in any order of
their steps, with any operations and calls, and their writers may break. Each has read the beginning of
what the other has written after its head. Each has got the first messages of the other, and the pongs
are those that the other has sent and the answers to its own pings, each in order. -/
theorem session {E : Type} [Extension E] {http : Http.Parser} {sha1 : List UInt8 → Vector UInt8 20}
    (hhttp : StreamsHeads http) {c : Client E} {s : Server E} (hc : ValidClient c)
    (hs : ∀ e ∈ s.extensions, Extension.Always TokenParams WellFormed e) (nonce : Vector UInt8 16)
    {p : Option String} (hp : ∀ q ∈ p, q ∈ c.protocols)
    (hlen : (c.request nonce).length ≤ maxHeadersSize)
    (hcw : c.socket.outcomes = []) (hsw : s.socket.outcomes = [])
    (hce : ∀ e ∈ c.extensions, Extension.isEnabled e = false)
    (hse : ∀ e ∈ s.extensions, Extension.isEnabled e = false)
    (hnone : c.extensions = [] ∨ s.extensions = []) {r later : Source UInt8} (hr : Clean r)
    (hrequest : bytes r = c.request nonce) (hlater : Clean later) :
    ∃ request s', (s.withReader (r ++ later)).accept http sha1 p = some (.ok request, s') ∧
      request.wsKey = .ofNonce nonce ∧ request.path = c.resource ∧
      request.headers.host = utf8 c.host ∧
      ∃ response, s'.socket.wire = s.socket.wire ++ response ∧
        ∀ {rc tail}, Clean rc → bytes rc = response ++ tail →
          ∃ c', (c.withReader rc).handshake http sha1 nonce = some (.ok (.accepted p), c') ∧
            c'.socket.wire = c.socket.wire ++ c.request nonce ∧
            ∀ {a b : End E} {sta stb : Fuse Half Half.Output (List E)},
              a.builder = c'.intoBuilder → b.builder = s'.intoBuilder →
              (∀ op ∈ a.ops, Small op) → (∀ op ∈ b.ops, Small op) →
              Relation.ReflTransGen Fuse.Step a.start sta →
              Relation.ReflTransGen Fuse.Step b.start stb →
              tail <+: stb.wire → bytes later <+: sta.wire →
              (∀ out, sta.fibers .receiver = .ret out →
                ∃ got, out = some got ∧ End.GotFrom a b (gained a.vectors got)) ∧
              ∀ out, stb.fibers .receiver = .ret out →
                ∃ got, out = some got ∧ End.GotFrom b a (gained b.vectors got) := by
  obtain ⟨request, s', r', haccept, hacc, hreader, hnil, hr'⟩ :=
    accept_alone hhttp hc hs hsw hlen sha1 p hr hrequest later
  -- none of the server's extensions is enabled by the request, and none of the client's by the response
  have hse' : ∀ e ∈ s'.extensions, Extension.isEnabled e = false := by
    rw [hacc.extensions]
    rcases hnone with hx | hx
    · rw [configureHeaders_request hc, hx]
      exact hse
    · rw [hx, configureHeaders_nil]
      simp
  refine ⟨request, s', haccept, hacc.wsKey, hacc.path, hacc.host, _, hacc.wire, ?_⟩
  intro rc tail hrc hresponse
  obtain ⟨c', hhand, htail, hclean', hwire, hext⟩ := handshake_accepted hhttp hc hcw
    (fun e he => (hacc.wellFormed e he).now) hp nonce hrc hresponse
  have hfilter : s'.extensions.filter Extension.isEnabled = [] :=
    List.filter_eq_nil_iff.mpr fun e he => by simp [hse' e he]
  rw [configureHeaders_response, hfilter] at hext
  have hsame : c'.extensions = c.extensions := hext
  refine ⟨c', hhand, hwire, ?_⟩
  intro a b sta stb hab hbb hopsa hopsb hsa hsb hina hinb
  rw [Client.intoBuilder, hsame, addExtensions_disabled _ hce] at hab
  rw [Server.intoBuilder, addExtensions_disabled _ hse', hacc.buffer, hreader] at hbb
  have ha : Fresh a .client tail := ⟨⟨_, _, hab, hclean', htail⟩, hopsa⟩
  have hb : Fresh b .server (bytes later) :=
    ⟨⟨_, _, hbb, hr'.append hlater, by rw [Chunked.bytes_append, hnil]; rfl⟩, hopsb⟩
  have hina' : a.receiver.stream <+: stb.wire := ha.stream_eq ▸ hina
  have hinb' : b.receiver.stream <+: sta.wire := hb.stream_eq ▸ hinb
  exact ⟨fun _ h => End.gotFrom ha.plain hb.plain (ha.suits hb) (hb.suits ha) hsa hsb hina' hinb' h,
    fun _ h => End.gotFrom hb.plain ha.plain (hb.suits ha) (ha.suits hb) hsb hsa hinb' hina' h⟩

/-! ## An example -/

theorem validClient_plainClient : ValidClient plainClient where
  resource := ⟨show "/" ≠ "" by decide,
    List.all_eq_true.mp (show "/".toList.all isTargetChar = true by decide)⟩
  host := (show IsToken "example.com" by decide).isVisible.isValue
  headers h hh := absurd hh List.not_mem_nil
  extensionsName h hh := absurd hh List.not_mem_nil
  protocolName h hh := absurd hh List.not_mem_nil
  protocols q hq := absurd hq List.not_mem_nil
  extensions e he := absurd he List.not_mem_nil
  count nonce := show 5 ≤ 32 by decide

/-- What a plain client sends, and then a message. -/
def requestAndMessage : Source UInt8 :=
  [.data (plainClient.request (Vector.replicate 16 0))] ++ [.data [0x82, 0x81, 1, 2], .data [3, 4, 6]]

/-- The server's end after the handshake. -/
def plainEnd : End Empty where
  builder := Builder.new [.data [], .data [0x82, 0x81, 1, 2], .data [3, 4, 6]] .server
  maskBuffer := []
  ops := []
  vectors := [[]]

/-- The message of the client arrives. -/
theorem session_message :
    (StreamsHeads lineParser ∧ ValidClient plainClient ∧
      (plainClient.request (Vector.replicate 16 0)).length ≤ maxHeadersSize) ∧
    ∃ request s' c' a sta stb,
      (plainServer.withReader requestAndMessage).accept lineParser Sha1.sha1 none =
        some (.ok request, s') ∧
      (plainClient.withReader [.data s'.socket.wire]).handshake lineParser Sha1.sha1
        (Vector.replicate 16 0) = some (.ok (.accepted none), c') ∧
      a.builder = c'.intoBuilder ∧ plainEnd.builder = s'.intoBuilder ∧
      Relation.ReflTransGen Fuse.Step a.start sta ∧
      Relation.ReflTransGen Fuse.Step plainEnd.start stb ∧ a.ops = [.sendBinary [7]] ∧
      (∃ out, stb.fibers .receiver = .ret out) ∧
      ∀ out, stb.fibers .receiver = .ret out →
        ∃ got, out = some got ∧ End.GotFrom plainEnd a (gained [[]] got) := by
  have hlen : (plainClient.request (Vector.replicate 16 0)).length ≤ maxHeadersSize := by
    decide +kernel
  obtain ⟨request, s', haccept, -, -, -, response, hwire, hclient⟩ :=
    @session Empty _ lineParser Sha1.sha1 streamsHeads_lineParser plainClient plainServer
      validClient_plainClient (by simp [plainServer, Server.new]) (Vector.replicate 16 0) none (by simp)
      hlen rfl rfl (by simp [plainClient, Client.new]) (by simp [plainServer, Server.new]) (Or.inl rfl)
      [.data (plainClient.request (Vector.replicate 16 0))]
      [.data [0x82, 0x81, 1, 2], .data [3, 4, 6]] (by simp [Clean]) (by simp) (by simp [Clean])
  have hreader : ((plainServer.withReader requestAndMessage).accept lineParser Sha1.sha1 none).map
      (fun r => (r.2.socket.reader, r.2.buffer)) =
        some ([.data [], .data [0x82, 0x81, 1, 2], .data [3, 4, 6]], []) := by decide +kernel
  have haccept' : (plainServer.withReader requestAndMessage).accept lineParser Sha1.sha1 none =
      some (.ok request, s') := haccept
  rw [haccept', Option.map_some, Option.some.injEq, Prod.mk.injEq] at hreader
  obtain rfl : s'.socket.wire = response := hwire
  obtain ⟨c', hhand, -, hrun⟩ := @hclient [.data s'.socket.wire] [] (by simp [Clean]) (by simp)
  have hc' : c'.extensions = [] := List.eq_nil_of_subset_nil fun e => e.elim
  have hs' : s'.extensions = [] := List.eq_nil_of_subset_nil fun e => e.elim
  let a : End Empty := ⟨c'.intoBuilder, [], [.sendBinary [7]], []⟩
  have hbuilder : plainEnd.builder = s'.intoBuilder := by
    rw [Server.intoBuilder, hreader.1, hreader.2, hs']
    rfl
  obtain ⟨socket, host, resource, headers, key, protocols, extensions, buffer⟩ := c'
  obtain rfl : extensions = [] := hc'
  have hsta := Relation.ReflTransGen.refl (r := Fuse.Step) (a := a.start)
    |>.tail (.whole rfl (.random (i := .sender) 0x01020304 rfl))
    |>.tail (.whole rfl (.lock (i := .sender) rfl rfl))
    |>.tail (.whole rfl (.write (i := .sender) [0x82, 0x81, 1, 2, 3, 4] [] rfl))
    |>.tail (.whole rfl (.written (i := .sender) rfl))
    |>.tail (.whole rfl (.write (i := .sender) [6] [] rfl))
  have hstb := Relation.ReflTransGen.refl (r := Fuse.Step) (a := plainEnd.start)
  exact ⟨⟨streamsHeads_lineParser, validClient_plainClient, hlen⟩, request, s', _, a, _, _, haccept',
    hhand, rfl, hbuilder, hsta, hstb, rfl, ⟨_, rfl⟩,
    (hrun (a := a) rfl hbuilder (show ∀ op ∈ [Op.sendBinary [7]], Small op by decide) (by decide)
      hsta hstb List.nil_prefix (List.prefix_refl _)).2⟩

end Soketto.Handshake
