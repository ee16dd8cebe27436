import Soketto.Agreement
import Soketto.ReceiveRequest
import Soketto.ReceiveResponse

/-!
# How a connection is opened

Client and server do the handshake over sockets that bring its bytes in chunks.

* `StreamsHeads`: what is asked of the parser when heads come in chunks.
* **`headEnd_head`**: the server waits for all of the head, and for nothing after it.
* `Opened`: what the server leaves of a stream; **`opened_receiveRequest`**.
* **`pipelined_iff`**: which bytes the server's connection begins with, when some were sent before
  the response.
-/

set_option autoImplicit false

namespace Soketto.Handshake

open Text Search
open Chunked (Source IoError Clean bytes)

/-- The parser reads heads back also when they come in chunks: more bytes do not change what it has
read, and it needs more bytes for the beginning of a response. -/
structure StreamsHeads (http : Http.Parser) : Prop extends ReadsHeads http where
  request_append {bs : List UInt8} {request : Http.Request} {offset : ℕ}
    (h : http.request bs = .ok (.complete request offset)) (more : List UInt8) :
    http.request (bs ++ more) = .ok (.complete request offset)
  response_append {bs : List UInt8} {response : Http.Response} {offset : ℕ}
    (h : http.response bs = .ok (.complete response offset)) (more : List UInt8) :
    http.response (bs ++ more) = .ok (.complete response offset)
  response_needMore {code : UInt16} {phrase : List UInt8} {headers : List Http.Header}
    (hc : 100 ≤ code.toNat ∧ code.toNat < 1000) (hp : ∀ b ∈ phrase, isValueByte b = true)
    (hv : ∀ h ∈ headers, ValidHeader h) {n : ℕ} (hn : n < (responseHead code phrase headers).length) :
    http.response ((responseHead code phrase headers).take n) = .ok .needMore

/-! ## The end of a head -/

section HeadEnd

variable {l rest : List UInt8}

/-- The first empty line is the one after all lines. -/
theorem firstEnd_lines {ls : List (List UInt8)} (hl : IsLine l) (hls : ∀ x ∈ ls, IsLine x) :
    firstEnd headersTail (l ++ ls.flatMap ([13, 10] ++ ·) ++ [13, 10, 13, 10] ++ rest) =
      some (l ++ ls.flatMap ([13, 10] ++ ·) ++ [13, 10, 13, 10]).length := by
  rw [headersTail_eq]
  induction ls generalizing l with
  | nil =>
    have hend : firstEnd [13, 10, 13, 10] (13 :: 10 :: 13 :: 10 :: rest) = some 4 := rfl
    rw [List.flatMap_nil, List.append_nil, List.append_assoc, firstEnd_append_of_not_mem hl.cr]
    simp [hend, Nat.add_comm]
  | cons x ls ih =>
    have hx := hls x List.mem_cons_self
    obtain ⟨b, x', rfl⟩ := List.exists_cons_of_ne_nil hx.ne_nil
    have hb : b ≠ 13 := fun hb => hx.cr (hb ▸ List.mem_cons_self)
    have hnext := ih hx fun y hy => hls y (List.mem_cons_of_mem _ hy)
    have heq : l ++ ((b :: x') :: ls).flatMap ([13, 10] ++ ·) ++ [13, 10, 13, 10] ++ rest =
        l ++ 13 :: 10 :: (b :: x' ++ ls.flatMap ([13, 10] ++ ·) ++ [13, 10, 13, 10] ++ rest) := by
      simp
    -- the line break is not the beginning of an empty line
    have hbreak : firstEnd [13, 10, 13, 10] (13 :: 10 :: (b :: x' ++ ls.flatMap ([13, 10] ++ ·) ++
          [13, 10, 13, 10] ++ rest)) =
        some ((b :: x' ++ ls.flatMap ([13, 10] ++ ·) ++ [13, 10, 13, 10]).length + 1 + 1) := by
      rw [firstEnd, if_neg (by simp [hb.symm]), firstEnd, if_neg (by simp), hnext]
      rfl
    rw [heq, firstEnd_append_of_not_mem hl.cr, hbreak]
    simp
    omega

/-- **The server waits for all of a head**, and for nothing after it. -/
theorem headEnd_head {headers : List Http.Header} (hl : IsLine l)
    (hv : ∀ h ∈ headers, ValidHeader h) {head : List UInt8}
    (heq : l ++ Client.headersBytes headers ++ utf8 "\r\n\r\n" = head)
    (hlen : head.length ≤ maxHeadersSize) : headEnd (head ++ rest) = head.length := by
  have hend : utf8 "\r\n\r\n" = [13, 10, 13, 10] := by decide
  have hlines : ∀ x ∈ headers.map headerLine, IsLine x := by
    intro x hx
    obtain ⟨h, hh, rfl⟩ := List.mem_map.mp hx
    exact isLine_headerLine (hv h hh)
  rw [headersBytes_eq, hend] at heq
  have hfirst : firstEnd headersTail (head ++ rest) = some head.length :=
    heq ▸ firstEnd_lines hl hlines
  rw [headEnd, hfirst, Option.getD_some, Nat.min_eq_left hlen]

end HeadEnd

/-! ## The server -/

/-- The request of a client. -/
def Client.request {E : Type} [Extension E] (c : Client E) (nonce : Vector UInt8 16) : List UInt8 :=
  ({ c with buffer := [] }.encodeRequest nonce).buffer

/-- The server with another source to read from. -/
def Server.withReader {E : Type} (s : Server E) (reader : Source UInt8) : Server E :=
  { s with socket := { s.socket with reader } }

section Read

variable {E : Type} {s s' : Server E} {fuel skip : ℕ} {r : Except Error Unit}

theorem readHead_frame (h : Server.readHead fuel skip s = some (r, s')) :
    s'.protocols = s.protocols ∧ s'.extensions = s.extensions ∧
      s'.socket.wire = s.socket.wire ∧ s'.socket.outcomes = s.socket.outcomes := by
  induction fuel generalizing skip s with
  | zero => cases h
  | succ fuel ih =>
    rw [Server.readHead] at h
    rcases hread : Soketto.read s.socket.reader s.buffer blockSize with ⟨e | u, reader, buffer⟩ <;>
      rw [hread] at h
    · cases h
      exact ⟨rfl, rfl, rfl, rfl⟩
    · dsimp only at h
      split_ifs at h
      · cases h
        exact ⟨rfl, rfl, rfl, rfl⟩
      · cases h
        exact ⟨rfl, rfl, rfl, rfl⟩
      · have hrest := ih h
        exact hrest

theorem readHead_append (h : Server.readHead fuel skip s = some (.ok (), s')) (t : Source UInt8) :
    Server.readHead fuel skip (s.withReader (s.socket.reader ++ t)) =
      some (.ok (), s'.withReader (s'.socket.reader ++ t)) := by
  induction fuel generalizing skip s with
  | zero => cases h
  | succ fuel ih =>
    rw [Server.readHead] at h
    rcases hread : Soketto.read s.socket.reader s.buffer blockSize with ⟨e | u, reader, buffer⟩ <;>
      rw [hread] at h
    · cases h
    · obtain ⟨got, hgot, hr, rfl⟩ := read_eq_ok.mp hread
      have happend : Soketto.read (s.withReader (s.socket.reader ++ t)).socket.reader
          (s.withReader (s.socket.reader ++ t)).buffer blockSize =
            (.ok (), reader ++ t, s.buffer ++ got) :=
        read_eq_ok.mpr ⟨got, hgot, Chunked.read_append hr hgot t, rfl⟩
      rw [Server.readHead, happend]
      dsimp only at h ⊢
      split_ifs at h ⊢
      · cases h
        rfl
      · cases h
        rfl
      · exact ih h

end Read

section Decode

variable {X Y : Type} [Extension X] [Extension Y] {http : Http.Parser} {c : Client X}
  {nonce : Vector UInt8 16} {s s' : Server Y}

theorem decodeRequest_of_request {buffer : List UInt8}
    (h : http.request s.buffer = http.request buffer) :
    s.decodeRequest http = (({ s with buffer }.decodeRequest http).1,
      { s with extensions := ({ s with buffer }.decodeRequest http).2.extensions }) := by
  unfold Server.decodeRequest
  dsimp only
  rw [h]
  split
  · rfl
  · rfl
  · unfold Server.checkRequest
    dsimp only
    split
    · rfl
    · split <;> rfl

theorem extensions_checkRequest {request : Http.Request} {r : ClientRequest}
    (h : s.checkRequest request = (.ok r, s')) :
    s'.extensions = (configureHeaders s.extensions request.headers).2 := by
  unfold Server.checkRequest at h
  dsimp only at h
  split at h
  · cases h
  · rcases hext : configureHeaders s.extensions request.headers with ⟨e | u, extensions⟩ <;>
      rw [hext] at h <;> cases h
    rfl

/-- **The server decodes the request**, whatever follows it in the buffer. -/
theorem decodeRequest_append (hhttp : StreamsHeads http) (hc : ValidClient c)
    (hs : ∀ e ∈ s.extensions, Extension.Always TokenParams WellFormed e) {more : List UInt8}
    (hb : s.buffer = c.request nonce ++ more) :
    ∃ origin extensions, s.decodeRequest http = (.ok ⟨.ofNonce nonce,
        Server.selectProtocols s.protocols (c.requestHeaders nonce), c.resource,
        ⟨utf8 c.host, origin⟩⟩, { s with extensions }) ∧
      extensions = (configureHeaders s.extensions (c.requestHeaders nonce)).2 ∧
      ∀ e ∈ extensions, Extension.Always TokenParams WellFormed e := by
  have hvalid := valid_requestHeaders hc.host hc.headers hc.protocols
    (fun e he => (hc.extensions e he).now) nonce
  have hparse : http.request (c.request nonce) = .ok (.complete
      ⟨some "GET", some c.resource, some 1, c.requestHeaders nonce⟩ (c.request nonce).length) := by
    rw [Client.request, encodeRequest_eq]
    exact hhttp.request (by decide) hc.resource hvalid (hc.count nonce)
  obtain ⟨origin, extensions, hdecode, hall⟩ := decodeRequest_encodeRequest hhttp.toReadsHeads hc
    nonce (s := { s with buffer := c.request nonce }) hs rfl
  have hsame : http.request s.buffer = http.request (c.request nonce) := by
    rw [hb, hhttp.request_append hparse more]
    exact hparse.symm
  refine ⟨origin, extensions, ?_, ?_, hall⟩
  · rw [decodeRequest_of_request hsame, hdecode]
  · rw [Server.decodeRequest, hparse] at hdecode
    exact extensions_checkRequest hdecode

end Decode

/-! ## Accepting a request -/

/-- Receive a request and accept it with a protocol, as the example server does. -/
def Server.accept {E : Type} [Extension E] (http : Http.Parser) (sha1 : List UInt8 → Vector UInt8 20)
    (protocol : Option String) (self : Server E) : Option (Except Error ClientRequest × Server E) :=
  match self.receiveRequest http with
  | none => none
  | some (.error e, self) => some (.error e, self)
  | some (.ok request, self) =>
    match self.sendResponse sha1 (.accept request.wsKey protocol) with
    | (.error e, self) => some (.error e, self)
    | (.ok (), self) => some (.ok request, self)

section Accept

variable {X Y : Type} [Extension X] [Extension Y] {http : Http.Parser}
  {sha1 : List UInt8 → Vector UInt8 20} {c : Client X} {nonce : Vector UInt8 16} {s s' : Server Y}
  {p : Option String} {tail : List UInt8}

/-- The server `s` has accepted the request of the client with the protocol `p`, and is `s'` now. -/
structure Accepted (sha1 : List UInt8 → Vector UInt8 20) (c : Client X) (nonce : Vector UInt8 16)
    (p : Option String) (s : Server Y) (request : ClientRequest) (s' : Server Y) : Prop where
  wsKey : request.wsKey = .ofNonce nonce
  path : request.path = c.resource
  host : request.headers.host = utf8 c.host
  buffer : s'.buffer = []
  extensions : s'.extensions = (configureHeaders s.extensions (c.requestHeaders nonce)).2
  wellFormed : ∀ e ∈ s'.extensions, Extension.Always TokenParams WellFormed e
  wire : s'.socket.wire = s.socket.wire ++ s'.encodeResponse sha1 (.accept (.ofNonce nonce) p)

theorem sendResponse_ok (h : s.socket.outcomes = []) (r : Response) :
    s.sendResponse sha1 r = (.ok (), { s with
      socket := ⟨s.socket.reader, s.socket.wire ++ s.encodeResponse sha1 r, []⟩, buffer := [] }) := by
  obtain ⟨⟨reader, wire, outcomes⟩, protocols, extensions, buffer⟩ := s
  obtain rfl : outcomes = [] := h
  rfl

theorem accept_of_readHead (hhttp : StreamsHeads http) (hc : ValidClient c)
    (hs : ∀ e ∈ s.extensions, Extension.Always TokenParams WellFormed e) (hw : s.socket.outcomes = [])
    (sha1 : List UInt8 → Vector UInt8 20) (p : Option String) {more : List UInt8}
    (h : Server.readHead ((bytes s.socket.reader).length + 1) 0 { s with buffer := [] } =
      some (.ok (), s')) (hb : s'.buffer = c.request nonce ++ more) :
    ∃ request t, s.accept http sha1 p = some (.ok request, t) ∧
      Accepted sha1 c nonce p s request t ∧ t.socket.reader = s'.socket.reader := by
  obtain ⟨-, hext, hwire, hout⟩ := readHead_frame h
  obtain ⟨origin, extensions, hdecode, hconf, hall⟩ := decodeRequest_append hhttp hc (hext ▸ hs) hb
  rw [hext] at hconf
  rw [Server.accept, Server.receiveRequest, h]
  dsimp only
  rw [hdecode]
  dsimp only
  have hsend : ({ s' with extensions } : Server Y).socket.outcomes = [] := hout.trans hw
  rw [sendResponse_ok hsend]
  exact ⟨_, _, rfl, ⟨rfl, rfl, rfl, rfl, hconf, hall, congrArg (· ++ _) hwire⟩, rfl⟩

/-- The server waits for all of the request, and for nothing after it. -/
theorem headEnd_request (hc : ValidClient c) (hlen : (c.request nonce).length ≤ maxHeadersSize)
    (tail : List UInt8) : headEnd (c.request nonce ++ tail) = (c.request nonce).length := by
  have hvalid := valid_requestHeaders hc.host hc.headers hc.protocols
    (fun e he => (hc.extensions e he).now) nonce
  exact headEnd_head (requestLine_eq (show IsToken "GET" by decide) hc.resource).1 hvalid
    (by rw [Client.request, encodeRequest_eq]; rfl) hlen

/-- **The server accepts the request**, however it is cut into chunks. What it has not read then is what
follows the request, but for some bytes that came with the end of it. -/
theorem accept_request (hhttp : StreamsHeads http) (hc : ValidClient c)
    (hs : ∀ e ∈ s.extensions, Extension.Always TokenParams WellFormed e) (hw : s.socket.outcomes = [])
    (hlen : (c.request nonce).length ≤ maxHeadersSize) (sha1 : List UInt8 → Vector UInt8 20)
    (p : Option String) {reader : Source UInt8} (hclean : Clean reader)
    (hbytes : bytes reader = c.request nonce ++ tail) :
    ∃ request t k, (s.withReader reader).accept http sha1 p = some (.ok request, t) ∧
      Accepted sha1 c nonce p s request t ∧ k ≤ tail.length ∧ k < blockSize ∧
      Clean t.socket.reader ∧ bytes t.socket.reader = tail.drop k := by
  have hend := headEnd_request hc hlen tail
  have hpos := headEnd_pos (c.request nonce ++ tail)
  have hspec := readHead_spec ((bytes reader).length + 1) (hasRead_start (s := s) hclean hbytes)
    (by omega) (by rw [hbytes]; omega) (le_refl 0)
  generalize hr : Server.readHead ((bytes reader).length + 1) 0
    { s with socket := { s.socket with reader }, buffer := [] } = r at hspec
  have hlength : (c.request nonce ++ tail).length = (c.request nonce).length + tail.length :=
    List.length_append
  cases hspec with
  | ended s' hlt =>
    rw [hend] at hlt
    omega
  | found s' n h hle hlt hp he =>
    obtain ⟨k, rfl⟩ := Nat.exists_eq_add_of_le (hend ▸ hle)
    have hn := h.le
    have hb : s'.buffer = c.request nonce ++ tail.take k := by
      rw [h.buffer, List.take_append, List.take_of_length_le (by omega), Nat.add_sub_cancel_left]
    obtain ⟨request, t, haccept, hacc, hreader⟩ := accept_of_readHead (s := s.withReader reader)
      hhttp hc hs hw sha1 p hr hb
    refine ⟨request, t, k, haccept, ?_, by omega, by omega, hreader ▸ h.clean, ?_⟩
    · exact ⟨hacc.wsKey, hacc.path, hacc.host, hacc.buffer, hacc.extensions, hacc.wellFormed, hacc.wire⟩
    · rw [hreader, h.rest, List.drop_append, List.drop_of_length_le (by omega), List.nil_append,
        Nat.add_sub_cancel_left]

omit [Extension Y] in
/-- Some bytes come with the end of the request, and the others later. -/
theorem readHead_pipelined (hc : ValidClient c) (hlen : (c.request nonce).length ≤ maxHeadersSize)
    {k : ℕ} (hk : k ≤ tail.length) (hlt : k < blockSize) (s : Server Y) :
    ∃ reader s', Clean reader ∧ bytes reader = c.request nonce ++ tail ∧
      Server.readHead ((bytes reader).length + 1) 0 { s.withReader reader with buffer := [] } =
        some (.ok (), s') ∧
      s'.buffer = c.request nonce ++ tail.take k ∧ bytes s'.socket.reader = tail.drop k := by
  have hend := headEnd_request hc hlen (tail.take k)
  have hpos := headEnd_pos (c.request nonce ++ tail.take k)
  generalize hreq : c.request nonce = req at hlen hend hpos
  rw [hend] at hpos
  have hmax : maxHeadersSize = blockSize := rfl
  let a := req.take (req.length - 1)
  let b := req.drop (req.length - 1) ++ tail.take k
  have hab : a ++ b = req ++ tail.take k := by
    rw [← List.append_assoc, List.take_append_drop]
  have ha : a.length = req.length - 1 := by
    rw [List.length_take]
    omega
  have hb : b.length = k + 1 := by
    rw [List.length_append, List.length_drop, List.length_take]
    omega
  have hchunks : ∀ x ∈ [a, b], 1 ≤ x.length ∧ x.length ≤ blockSize := by
    intro x hx
    simp only [List.mem_cons, List.not_mem_nil, or_false] at hx
    rcases hx with rfl | rfl <;> omega
  -- one byte is missing after the first read, and none after the second
  have hno : ¬HasEnough a := by
    have h := (headEnd_le_iff (req ++ tail.take k) a.length).not.mp (by omega)
    rwa [← hab, List.take_append_of_le_length (Nat.min_le_left _ _)] at h
  have hyes : HasEnough (a ++ b) := by
    have h := (headEnd_le_iff (a ++ b) (a ++ b).length).mp (by
      rw [hab, hend, List.length_append]
      omega)
    exact h
  let start : Server Y := { s.withReader ([a, b].map .data) with buffer := [] }
  have hbytes : bytes ([a, b].map .data ++ [.data (tail.drop k)]) = req ++ tail := by
    have hall : a ++ b ++ tail.drop k = req ++ tail := by
      rw [hab, List.append_assoc, List.take_append_drop]
    simpa using hall
  have hclean : Clean ([a, b].map .data ++ [.data (tail.drop k)]) := by simp [Clean]
  have hleaves := leaves_readHeadWhole (s := start) ((req ++ tail).length + 1)
    (by rw [List.length_append]; simp; omega) (delivers_map hchunks)
  rw [← readHead_eq_whole _ not_hasEnough_nil (le_refl 0)] at hleaves
  generalize hr : Server.readHead ((req ++ tail).length + 1) 0 start = r at hleaves
  cases hleaves with
  | ended reader hnone => exact absurd hyes (by simpa [start] using hnone 2 (by decide) (by simp))
  | enough n reader hn henough hfirst hrest =>
    have hn2 : n = 2 := by
      by_contra hne
      have h1 : n = 1 := by
        have := hn.2
        simp at this
        omega
      subst h1
      exact hno (by simpa [start] using henough)
    subst hn2
    have happend := readHead_append hr [.data (tail.drop k)]
    refine ⟨_, _, hclean, hbytes, by rw [hbytes]; exact happend, ?_, ?_⟩
    · rw [← hab]
      simp [Server.withReader, Server.received, start]
    · change bytes (reader ++ [.data (tail.drop k)]) = _
      rw [Chunked.bytes_append, hrest]
      simp

theorem stream_intoBuilder (s : Server Y) (hb : s.buffer = []) :
    s.intoBuilder.finish.2.1.stream = bytes s.socket.reader := by
  obtain ⟨hsocket, hbuffer⟩ := addExtensions_frame
    ((Builder.new s.socket.reader .server).setBuffer s.buffer) s.extensions
  have hreader : s.intoBuilder.finish.2.1.reader = s.socket.reader := hsocket
  have hstream : s.intoBuilder.finish.2.1.buffer = s.buffer := hbuffer
  rw [Receiver.stream, hreader, hstream, hb, List.nil_append]

/-- **What the server loses.** A client that does not wait for the response sends `tail` right after its
request. The request is accepted however the bytes are cut into chunks. The connection of the server may
begin with `tail` less its first `k` bytes, for every `k` below 8192 that there are, and with nothing
else. -/
theorem pipelined_iff (hhttp : StreamsHeads http) (hc : ValidClient c)
    (hs : ∀ e ∈ s.extensions, Extension.Always TokenParams WellFormed e) (hw : s.socket.outcomes = [])
    (hlen : (c.request nonce).length ≤ maxHeadersSize) (sha1 : List UInt8 → Vector UInt8 20)
    (p : Option String) (tail stream : List UInt8) :
    (∀ reader, Clean reader → bytes reader = c.request nonce ++ tail →
      ∃ request t, (s.withReader reader).accept http sha1 p = some (.ok request, t)) ∧
    ((∃ reader request t, Clean reader ∧ bytes reader = c.request nonce ++ tail ∧
        (s.withReader reader).accept http sha1 p = some (.ok request, t) ∧
        t.intoBuilder.finish.2.1.stream = stream) ↔
      ∃ k, k ≤ tail.length ∧ k < blockSize ∧ stream = tail.drop k) := by
  refine ⟨fun reader hclean hbytes => ?_, ?_, ?_⟩
  · obtain ⟨request, t, -, haccept, -⟩ := accept_request hhttp hc hs hw hlen sha1 p hclean hbytes
    exact ⟨request, t, haccept⟩
  · rintro ⟨reader, request, t, hclean, hbytes, haccept, rfl⟩
    obtain ⟨request', t', k, haccept', hacc, hk, hlt, -, hrest⟩ :=
      accept_request hhttp hc hs hw hlen sha1 p hclean hbytes
    cases haccept.symm.trans haccept'
    exact ⟨k, hk, hlt, (stream_intoBuilder t hacc.buffer).trans hrest⟩
  · rintro ⟨k, hk, hlt, rfl⟩
    obtain ⟨reader, s', hclean, hbytes, hread, hbuffer, hrest⟩ :=
      readHead_pipelined hc hlen hk hlt s
    obtain ⟨request, t, haccept, hacc, hreader⟩ :=
      accept_of_readHead (s := s.withReader reader) hhttp hc hs hw sha1 p hread hbuffer
    refine ⟨reader, request, t, hclean, hbytes, haccept, ?_⟩
    rw [stream_intoBuilder t hacc.buffer, hreader, hrest]

/-- **The server accepts a request** before anything else is sent. Then it has read the request only. -/
theorem accept_alone (hhttp : StreamsHeads http) (hc : ValidClient c)
    (hs : ∀ e ∈ s.extensions, Extension.Always TokenParams WellFormed e) (hw : s.socket.outcomes = [])
    (hlen : (c.request nonce).length ≤ maxHeadersSize) (sha1 : List UInt8 → Vector UInt8 20)
    (p : Option String) {reader : Source UInt8} (hclean : Clean reader)
    (hbytes : bytes reader = c.request nonce) (later : Source UInt8) :
    ∃ request t reader', (s.withReader (reader ++ later)).accept http sha1 p = some (.ok request, t) ∧
      Accepted sha1 c nonce p s request t ∧ t.socket.reader = reader' ++ later ∧
      bytes reader' = [] ∧ Clean reader' := by
  have hend := headEnd_request hc hlen []
  rw [List.append_nil] at hend
  have hpos := headEnd_pos (c.request nonce)
  have hlength := congrArg List.length (Chunked.bytes_append reader later)
  rw [List.length_append, hbytes] at hlength
  have hspec := readHead_spec ((bytes (reader ++ later)).length + 1)
    (hasRead_start (s := s) hclean hbytes) (by omega) (by omega) (le_refl 0)
  generalize hr : Server.readHead ((bytes (reader ++ later)).length + 1) 0
    { s with socket := { s.socket with reader }, buffer := [] } = r at hspec
  cases hspec with
  | ended s' hlt => omega
  | found s' n h hle hlt hp he =>
    have hn : n = (c.request nonce).length := le_antisymm h.le (hend ▸ hle)
    have hb : (s'.withReader (s'.socket.reader ++ later)).buffer = c.request nonce ++ [] := by
      rw [Server.withReader, h.buffer, hn, List.take_length, List.append_nil]
    obtain ⟨request, t, haccept, hacc, hreader⟩ :=
      accept_of_readHead (s := s.withReader (reader ++ later)) hhttp hc hs hw sha1 p
        (readHead_append hr later) hb
    refine ⟨request, t, s'.socket.reader, haccept, ?_, hreader, ?_, h.clean⟩
    · exact ⟨hacc.wsKey, hacc.path, hacc.host, hacc.buffer, hacc.extensions, hacc.wellFormed, hacc.wire⟩
    · rw [h.rest, hn, List.drop_length]

end Accept

/-! ## The client -/

section Client

variable {X Y : Type} [Extension X] [Extension Y] {http : Http.Parser}
  {sha1 : List UInt8 → Vector UInt8 20} {c c' : Client X} {nonce : Vector UInt8 16} {s : Server Y}
  {p : Option String} {tail : List UInt8}

theorem readsResponse_encodeResponse (hhttp : StreamsHeads http) (hs : ∀ e ∈ s.extensions, WellFormed e)
    (hp : ∀ q ∈ p, IsToken q) (key : WebSocketKey) :
    ReadsResponse http (s.encodeResponse sha1 (.accept key p))
      ⟨some 1, some 101, s.responseHeaders sha1 key p⟩ := by
  have hvalid := valid_responseHeaders hs hp sha1 key
  have hphrase : ∀ b ∈ utf8 "Switching Protocols", isValueByte b = true :=
    List.all_eq_true.mp (by decide)
  have hcode : 100 ≤ (101 : UInt16).toNat ∧ (101 : UInt16).toNat < 1000 := by decide
  rw [encodeResponse_eq]
  refine ⟨?_, fun hn => hhttp.response_needMore hcode hphrase hvalid hn, fun rest => ?_⟩
  · simp [responseHead, codeDigits]
  · exact hhttp.response_append (hhttp.response hcode hphrase hvalid length_responseHeaders_le) rest

theorem extensions_checkAccepted {headers : List Http.Header}
    (h : c.checkAccepted sha1 headers = (.ok p, c')) :
    c'.extensions = (configureHeaders c.extensions headers).2 := by
  unfold Client.checkAccepted at h
  dsimp only at h
  split at h
  · cases h
  · rcases hext : configureHeaders c.extensions headers with ⟨e | u, extensions⟩ <;>
      rw [hext] at h <;> dsimp only at h
    · cases h
    · split at h
      · cases h
        rfl
      · split at h <;> cases h
        rfl

theorem extensions_decodeResponse {response : Http.Response} {offset n : ℕ}
    (hresponse : http.response c.buffer = .ok (.complete response offset))
    (h : c.decodeResponse http sha1 = (.ok (.done (.accepted p) n), c')) :
    c'.extensions = (configureHeaders c.extensions response.headers).2 := by
  have hredirect : ∀ (code : UInt16) (x : Except Error String),
      x.map (fun l => Parsing.done (.redirect code l) offset) ≠ .ok (.done (.accepted p) n) := by
    intro code x hx
    cases x <;> cases hx
  unfold Client.decodeResponse at h
  rw [hresponse] at h
  dsimp only at h
  split_ifs at h with hversion h101
  · cases h
  · rcases hcheck : c.checkAccepted sha1 response.headers with ⟨e | q, d⟩ <;> rw [hcheck] at h <;>
      cases h
    exact extensions_checkAccepted hcheck
  · exact absurd (congrArg Prod.fst h) (hredirect _ _)
  · cases h

theorem readResponse_frame {fuel : ℕ} {r : Except Error ServerResponse}
    (h : Client.readResponse http sha1 fuel c = some (r, c')) : c'.socket.wire = c.socket.wire := by
  induction fuel generalizing c with
  | zero => cases h
  | succ fuel ih =>
    rw [Client.readResponse] at h
    rcases hread : Soketto.read c.socket.reader c.buffer (8 * 1024) with ⟨e | u, reader, buffer⟩ <;>
      rw [hread] at h <;> dsimp only at h
    · cases h
      rfl
    · let d : Client X := { c with socket := { c.socket with reader }, buffer }
      have hsame : d.decodeResponse http sha1 = ((d.decodeResponse http sha1).1,
          { d with extensions := (d.decodeResponse http sha1).2.extensions }) :=
        show (d.at d.socket d.buffer).decodeResponse http sha1 = _ from decodeResponse_at rfl
      rw [hsame] at h
      rcases hd : (d.decodeResponse http sha1).1 with e | ⟨value, offset⟩ | _ <;> rw [hd] at h
      · cases h
        rfl
      · cases h
        rfl
      · dsimp only at h
        have hrest := ih h
        exact hrest

theorem handshake_eq (hw : c.socket.outcomes = []) (nonce : Vector UInt8 16) (reader : Source UInt8) :
    (c.withReader reader).handshake http sha1 nonce =
      Client.readResponse http sha1 ((bytes reader).length + 1)
        ({ c with nonce := .ofNonce nonce }.at ⟨reader, c.socket.wire ++ c.request nonce, []⟩ []) := by
  obtain ⟨⟨rd, wire, outcomes⟩, host, resource, headers, key, protocols, extensions, buffer⟩ := c
  obtain rfl : outcomes = [] := hw
  rfl

/-- **The client reads the head of a response**, however it is cut into chunks, and leaves what follows
it. -/
theorem handshake_head {head : List UInt8} {response : Http.Response}
    (hhead : ReadsResponse http head response) (hw : c.socket.outcomes = []) (nonce : Vector UInt8 16)
    {reader : Source UInt8} (hclean : Clean reader) (hbytes : bytes reader = head ++ tail) :
    ResponseSpec tail (c.decodeHead http sha1 nonce head)
        ((c.withReader reader).handshake http sha1 nonce) ∧
      ∀ {r c'}, (c.withReader reader).handshake http sha1 nonce = some (r, c') →
        c'.socket.wire = c.socket.wire ++ c.request nonce := by
  let d : Client X := { c with nonce := .ofNonce nonce, buffer := head }
  let socket : Socket := ⟨reader, c.socket.wire ++ c.request nonce, []⟩
  have hspec : ResponseSpec tail (d.decodeResponse http sha1)
      (Client.readResponse http sha1 ((bytes reader).length + 1) (d.at socket ((head ++ tail).take 0))) :=
    readResponse_spec hhead rfl ((bytes reader).length + 1) hclean
      (List.length_pos_iff.mpr hhead.ne_nil) hbytes (by rw [hbytes]; omega)
  rw [handshake_eq hw nonce reader]
  exact ⟨hspec, fun h => readResponse_frame h⟩

/-- **The client reads that it was accepted**, however the response is cut into chunks, and leaves what
follows it. -/
theorem handshake_accepted (hhttp : StreamsHeads http) (hc : ValidClient c)
    (hw : c.socket.outcomes = []) (hs : ∀ e ∈ s.extensions, WellFormed e)
    (hp : ∀ q ∈ p, q ∈ c.protocols) (nonce : Vector UInt8 16) {reader : Source UInt8}
    (hclean : Clean reader)
    (hbytes : bytes reader = s.encodeResponse sha1 (.accept (.ofNonce nonce) p) ++ tail) :
    ∃ c', (c.withReader reader).handshake http sha1 nonce = some (.ok (.accepted p), c') ∧
      c'.buffer ++ bytes c'.socket.reader = tail ∧ Clean c'.socket.reader ∧
      c'.socket.wire = c.socket.wire ++ c.request nonce ∧
      c'.extensions =
        (configureHeaders c.extensions (s.responseHeaders sha1 (.ofNonce nonce) p)).2 := by
  have hhead : ReadsResponse http (s.encodeResponse sha1 (.accept (.ofNonce nonce) p)) _ :=
    readsResponse_encodeResponse hhttp hs (fun q hq => hc.protocols q (hp q hq)) (.ofNonce nonce)
  generalize hresponse : s.encodeResponse sha1 (.accept (.ofNonce nonce) p) = head at hhead hbytes
  let d : Client X := { c with nonce := .ofNonce nonce, buffer := head }
  obtain ⟨extensions, hdecode⟩ := decodeResponse_encodeResponse hhttp.toReadsHeads hs (c := d)
    hc.extensions rfl hc.protocols hp hresponse.symm
  have hparse : http.response d.buffer = .ok (.complete
      ⟨some 1, some 101, s.responseHeaders sha1 (.ofNonce nonce) p⟩ head.length) := by
    simpa using hhead.complete []
  obtain ⟨hspec, hwire⟩ := handshake_head hhead hw nonce hclean hbytes
  obtain ⟨c', hrun, hext, hclean', htail⟩ := hspec.done (congrArg Prod.fst hdecode)
  refine ⟨c', hrun, htail, hclean', hwire hrun, ?_⟩
  rw [hext, Client.decodeHead, hdecode]
  exact extensions_decodeResponse hparse hdecode

end Client

/-! ## A parser -/

section Parser

variable {α : Type} {start : List UInt8 → Option (List Http.Header → α)} {head : List UInt8}

theorem parseHead_take {l : List UInt8} (hl : IsLine l) {headers : List Http.Header}
    (hv : ∀ h ∈ headers, ValidHeader h)
    (hhead : l ++ Client.headersBytes headers ++ utf8 "\r\n\r\n" = head) {n : ℕ}
    (hn : n < head.length) : parseHead start (head.take n) = .ok .needMore := by
  have hend : utf8 "\r\n\r\n" = [13, 10, 13, 10] := by decide
  have hlines : ∀ x ∈ headers.map headerLine, IsLine x := by
    intro x hx
    obtain ⟨h, hh, rfl⟩ := List.mem_map.mp hx
    exact isLine_headerLine (hv h hh)
  have hscan : scanLines [] head = some (l :: headers.map headerLine, head.length) := by
    have h := scanLines_lines hl hlines []
    rwa [List.append_nil, ← headersBytes_eq, ← hend, hhead] at h
  have hskip : skipEmptyLines (head.take n) = 0 := by
    obtain ⟨b, l', rfl⟩ := List.exists_cons_of_ne_nil hl.ne_nil
    have hb : IsLine [b] := by
      refine ⟨List.cons_ne_nil _ _, ?_, ?_⟩ <;> rw [List.mem_singleton] <;> rintro rfl
      · exact hl.lf List.mem_cons_self
      · exact hl.cr List.mem_cons_self
    cases n with
    | zero => rfl
    | succ n =>
      rw [← hhead, List.cons_append, List.cons_append, List.take_succ_cons]
      exact skipEmptyLines_line hb _
  rw [parseHead, hskip, List.drop_zero]
  cases hpre : scanLines [] (head.take n) with
  | none => rfl
  | some r =>
    -- more bytes would not change what was scanned
    have hall := scanLines_append hpre (head.drop n)
    rw [List.take_append_drop, hscan] at hall
    have hle := scanLines_le hpre
    rw [← Option.some.inj hall, List.length_take] at hle
    dsimp only at hle
    omega

theorem streamsHeads_lineParser : StreamsHeads lineParser where
  toReadsHeads := readsHeads_lineParser
  request_append h more := parseHead_append h more
  response_append h more := parseHead_append h more
  response_needMore hc hp hv _ hn := parseHead_take (statusLine_eq hc hp).1 hv rfl hn

end Parser

/-- An empty ping that comes together with the end of the request is lost. -/
theorem pipelined_ping :
    (StreamsHeads lineParser ∧ ValidClient (chatClient ["superchat"]) ∧
      (∀ e ∈ chatServer.extensions, Extension.Always TokenParams WellFormed e) ∧
      chatServer.socket.outcomes = [] ∧
      ((chatClient ["superchat"]).request (Vector.replicate 16 0)).length ≤ maxHeadersSize) ∧
    ∃ reader request t, Clean reader ∧
      bytes reader = (chatClient ["superchat"]).request (Vector.replicate 16 0) ++
        [0x89, 0x80, 1, 2, 3, 4] ∧
      (chatServer.withReader reader).accept lineParser Sha1.sha1 none = some (.ok request, t) ∧
      t.intoBuilder.finish.2.1.stream = [] := by
  have hc : ValidClient (chatClient ["superchat"]) := validClient_chatClient (by decide)
  have hlen : ((chatClient ["superchat"]).request (Vector.replicate 16 0)).length ≤ maxHeadersSize := by
    decide +kernel
  exact ⟨⟨streamsHeads_lineParser, hc, wellFormed_chatServer, rfl, hlen⟩,
    (pipelined_iff streamsHeads_lineParser hc wellFormed_chatServer rfl hlen Sha1.sha1 none
      [0x89, 0x80, 1, 2, 3, 4] []).2.mpr ⟨6, by decide, by decide, rfl⟩⟩

end Soketto.Handshake
