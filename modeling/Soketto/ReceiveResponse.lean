import Soketto.Connection.Read
import Soketto.Handshake.Parser
import Soketto.Lib.Sha1

/-!
# The client reads a response

A response comes in chunks, and frames may follow it in the same chunk. The client parses what it
has after every read, until it has the head of the response.

* `ReadsResponse`: the parser finds the end of the head, and no end before it.
* **`readResponse_spec`**: what the client then has of the stream.
* **`handshake_tail`**: no byte after the head is lost, and the chunks do not matter.
-/

set_option autoImplicit false

namespace Soketto.Handshake

open Text
open Chunked (Source IoError Clean bytes)

/-- The parser needs more bytes as long as some of the head are missing, and finds the response in
the head whatever follows. -/
structure ReadsResponse (http : Http.Parser) (head : List UInt8) (response : Http.Response) :
    Prop where
  ne_nil : head ≠ []
  needMore {n : ℕ} (h : n < head.length) : http.response (head.take n) = .ok .needMore
  complete (rest : List UInt8) :
    http.response (head ++ rest) = .ok (.complete response head.length)

section

variable {E : Type} [Extension E] {http : Http.Parser} {sha1 : List UInt8 → Vector UInt8 20}
  {head tail : List UInt8} {response : Http.Response}

/-! ## Decoding -/

/-- The client with another socket and other bytes in its buffer. -/
def Client.at (c : Client E) (socket : Socket) (buffer : List UInt8) : Client E :=
  { c with socket, buffer }

theorem checkAccepted_at (c : Client E) (socket : Socket) (buffer : List UInt8)
    (headers : List Http.Header) :
    (c.at socket buffer).checkAccepted sha1 headers = ((c.checkAccepted sha1 headers).1,
      { c.at socket buffer with extensions := (c.checkAccepted sha1 headers).2.extensions }) := by
  unfold Client.checkAccepted Client.at
  dsimp only
  split
  · rfl
  · split
    · rfl
    · split
      · rfl
      · split <;> rfl

theorem decodeResponse_at {c : Client E} {socket : Socket} {buffer : List UInt8}
    (hr : http.response buffer = http.response c.buffer) :
    (c.at socket buffer).decodeResponse http sha1 = ((c.decodeResponse http sha1).1,
      { c.at socket buffer with extensions := (c.decodeResponse http sha1).2.extensions }) := by
  have hbuffer : (c.at socket buffer).buffer = buffer := rfl
  unfold Client.decodeResponse
  rw [hbuffer, hr]
  split
  · rfl
  · rfl
  · split_ifs
    · rfl
    · rw [checkAccepted_at]
      rcases c.checkAccepted sha1 _ with ⟨r, c'⟩
      cases r <;> rfl
    · dsimp only
      split_ifs <;> rfl

theorem decodeResponse_needMore {c : Client E} (h : http.response c.buffer = .ok .needMore) :
    c.decodeResponse http sha1 = (.ok .needMore, c) := by
  rw [Client.decodeResponse, h]

theorem decodeResponse_complete (sha1 : List UInt8 → Vector UInt8 20) {c : Client E} {offset : ℕ}
    (h : http.response c.buffer = .ok (.complete response offset)) :
    (∃ e, (c.decodeResponse http sha1).1 = .error e) ∨
      ∃ value, (c.decodeResponse http sha1).1 = .ok (.done value offset) := by
  unfold Client.decodeResponse
  rw [h]
  dsimp only
  split_ifs
  · exact Or.inl ⟨_, rfl⟩
  · rcases c.checkAccepted sha1 response.headers with ⟨e | p, c'⟩
    · exact Or.inl ⟨_, rfl⟩
    · exact Or.inr ⟨_, rfl⟩
  · rcases withFirstHeader response.headers "Location" _ with e | l
    · exact Or.inl ⟨_, rfl⟩
    · exact Or.inr ⟨_, rfl⟩
  · exact Or.inr ⟨_, rfl⟩

/-! ## Reading -/

/-- What is read of a stream with this tail, when `decoded` is what the head is decoded to. -/
structure ResponseSpec (tail : List UInt8) (decoded : Except Error Parsing × Client E)
    (out : Option (Except Error ServerResponse × Client E)) : Prop where
  error {e : Error} (h : decoded.1 = .error e) :
    ∃ c', out = some (.error e, c') ∧ c'.extensions = decoded.2.extensions
  done {value : ServerResponse} {offset : ℕ} (h : decoded.1 = .ok (.done value offset)) :
    ∃ c', out = some (.ok value, c') ∧ c'.extensions = decoded.2.extensions ∧
      Clean c'.socket.reader ∧ c'.buffer ++ bytes c'.socket.reader = tail

theorem readResponse_round {c : Client E} {socket : Socket} {buffer got : List UInt8}
    {reader : Source UInt8}
    (hr : Soketto.read socket.reader buffer (8 * 1024) = (.ok (), reader, buffer ++ got))
    (fuel : ℕ) :
    Client.readResponse http sha1 (fuel + 1) (c.at socket buffer) =
      match (c.at { socket with reader } (buffer ++ got)).decodeResponse http sha1 with
      | (.error e, self) => some (.error e, self)
      | (.ok (.done value offset), self) =>
        some (.ok value, { self with buffer := self.buffer.drop offset })
      | (.ok .needMore, self) => Client.readResponse http sha1 fuel self := by
  have hread : Soketto.read (c.at socket buffer).socket.reader (c.at socket buffer).buffer (8 * 1024) =
      (.ok (), reader, buffer ++ got) := hr
  rw [Client.readResponse, hread]
  rfl

theorem spec_of_complete (hhead : ReadsResponse http head response) {c : Client E}
    (hbuffer : c.buffer = head) {socket : Socket} (hc : Clean socket.reader) {more : List UInt8}
    (hmore : more ++ bytes socket.reader = tail)
    (next : Client E → Option (Except Error ServerResponse × Client E)) :
    ResponseSpec tail (c.decodeResponse http sha1)
      (match (c.at socket (head ++ more)).decodeResponse http sha1 with
        | (.error e, self) => some (.error e, self)
        | (.ok (.done value offset), self) =>
          some (.ok value, { self with buffer := self.buffer.drop offset })
        | (.ok .needMore, self) => next self) := by
  have hhere : http.response c.buffer = .ok (.complete response head.length) := by
    rw [hbuffer]
    simpa using hhead.complete []
  rw [decodeResponse_at ((hhead.complete more).trans hhere.symm)]
  rcases decodeResponse_complete sha1 hhere with ⟨e, he⟩ | ⟨value, hv⟩
  · rw [he]
    refine ⟨fun h => ?_, fun h => ?_⟩
    · cases he.symm.trans h
      exact ⟨_, rfl, rfl⟩
    · cases he.symm.trans h
  · rw [hv]
    refine ⟨fun h => ?_, fun h => ?_⟩
    · cases hv.symm.trans h
    · cases hv.symm.trans h
      refine ⟨_, rfl, rfl, hc, ?_⟩
      change (head ++ more).drop head.length ++ bytes socket.reader = tail
      rw [List.drop_left, hmore]

/-- **All rounds**: the head is decoded once, and what follows it is left. -/
theorem readResponse_spec (hhead : ReadsResponse http head response) {c : Client E}
    (hbuffer : c.buffer = head) (fuel : ℕ) {socket : Socket} (hc : Clean socket.reader) {i : ℕ}
    (hi : i < head.length) (hb : bytes socket.reader = (head ++ tail).drop i)
    (hfuel : (head ++ tail).length < fuel + i) :
    ResponseSpec tail (c.decodeResponse http sha1)
      (Client.readResponse http sha1 fuel (c.at socket ((head ++ tail).take i))) := by
  have hlength : (head ++ tail).length = head.length + tail.length := List.length_append
  induction fuel generalizing socket i with
  | zero => omega
  | succ fuel ih =>
    have hread := Receiver.read_spec hc ((head ++ tail).take i) (n := 8 * 1024) (by decide)
    rcases hread with ⟨hnil, -⟩ | ⟨got, reader, hne, -, hgot, hc', hr⟩
    · rw [hb, List.drop_eq_nil_iff] at hnil
      omega
    · have hpos : 0 < got.length := List.length_pos_iff.mpr hne
      rw [hb] at hgot
      have hrest : bytes reader = (head ++ tail).drop (i + got.length) := by
        rw [← List.drop_drop, hgot, List.drop_left]
      have hnext : (head ++ tail).take i ++ got = (head ++ tail).take (i + got.length) := by
        rw [List.take_add, hgot, List.take_left]
      rw [readResponse_round hr, hnext]
      by_cases hj : i + got.length < head.length
      · have hmore : http.response (c.at { socket with reader }
            ((head ++ tail).take (i + got.length))).buffer = .ok .needMore := by
          change http.response ((head ++ tail).take (i + got.length)) = _
          rw [List.take_append_of_le_length hj.le]
          exact hhead.needMore hj
        rw [decodeResponse_needMore hmore]
        exact ih hc' hj hrest (by omega)
      · have htake : (head ++ tail).take (i + got.length) =
            head ++ tail.take (i + got.length - head.length) := by
          rw [List.take_append, List.take_of_length_le (by omega)]
        rw [htake]
        refine spec_of_complete hhead hbuffer hc' ?_ _
        change _ ++ bytes reader = tail
        rw [hrest, List.drop_append, List.drop_of_length_le (by omega), List.nil_append,
          List.take_append_drop]

/-! ## The handshake -/

/-- The client with another source to read from. -/
def Client.withReader (c : Client E) (reader : Source UInt8) : Client E :=
  { c with socket := { c.socket with reader } }

omit [Extension E] in
theorem writeAll_cases (wire : List UInt8) (outcomes : List (Option (ℕ × IoError)))
    (bs : List UInt8) :
    (∃ e w os, ∀ reader, Socket.writeAll ⟨reader, wire, outcomes⟩ bs = (.error e, ⟨reader, w, os⟩)) ∨
    ∃ w os, ∀ reader, Socket.writeAll ⟨reader, wire, outcomes⟩ bs = (.ok (), ⟨reader, w, os⟩) := by
  rcases outcomes with _ | ⟨_ | ⟨k, e⟩, os⟩
  · exact Or.inr ⟨wire ++ bs, [], fun _ => rfl⟩
  · exact Or.inr ⟨wire ++ bs, os, fun _ => rfl⟩
  · exact Or.inl ⟨e, wire ++ bs.take k, os, fun _ => rfl⟩

omit [Extension E] in
theorem flush_cases (wire : List UInt8) (outcomes : List (Option (ℕ × IoError))) :
    (∃ e os, ∀ reader, Socket.flush ⟨reader, wire, outcomes⟩ = (.error e, ⟨reader, wire, os⟩)) ∨
    ∃ os, ∀ reader, Socket.flush ⟨reader, wire, outcomes⟩ = (.ok (), ⟨reader, wire, os⟩) := by
  rcases outcomes with _ | ⟨_ | ⟨k, e⟩, os⟩
  · exact Or.inr ⟨[], fun _ => rfl⟩
  · exact Or.inr ⟨os, fun _ => rfl⟩
  · exact Or.inl ⟨e, os, fun _ => rfl⟩

theorem handshake_cases (http : Http.Parser) (sha1 : List UInt8 → Vector UInt8 20) (c : Client E)
    (nonce : Vector UInt8 16) :
    (∃ e, ∀ reader, ∃ c', (c.withReader reader).handshake http sha1 nonce =
        some (.error (.io e), c') ∧ c'.extensions = c.extensions) ∨
    ∃ wire outcomes, ∀ reader, (c.withReader reader).handshake http sha1 nonce =
      Client.readResponse http sha1 ((bytes reader).length + 1)
        ({ c with nonce := .ofNonce nonce }.at ⟨reader, wire, outcomes⟩ []) := by
  -- the request does not depend on the source
  have hwrite : ∀ reader, Socket.writeAll
      ({ c.withReader reader with buffer := [] }.encodeRequest nonce).socket
      ({ c.withReader reader with buffer := [] }.encodeRequest nonce).buffer =
      Socket.writeAll ⟨reader, c.socket.wire, c.socket.outcomes⟩
        ({ c with buffer := [] }.encodeRequest nonce).buffer := fun _ => rfl
  rcases writeAll_cases c.socket.wire c.socket.outcomes
    ({ c with buffer := [] }.encodeRequest nonce).buffer with ⟨e, w, os, hw⟩ | ⟨w, os, hw⟩
  · refine Or.inl ⟨e, fun reader => ?_⟩
    rw [Client.handshake, hwrite, hw]
    exact ⟨_, rfl, rfl⟩
  · rcases flush_cases w os with ⟨e, os', hf⟩ | ⟨os', hf⟩
    · refine Or.inl ⟨e, fun reader => ?_⟩
      rw [Client.handshake, hwrite, hw]
      dsimp only
      rw [hf]
      exact ⟨_, rfl, rfl⟩
    · refine Or.inr ⟨w, os', fun reader => ?_⟩
      rw [Client.handshake, hwrite, hw]
      dsimp only
      rw [hf]
      rfl

theorem addExtensions_frame (b : Builder E) (es : List E) :
    (b.addExtensions es).socket = b.socket ∧ (b.addExtensions es).buffer = b.buffer := by
  induction es generalizing b with
  | nil => exact ⟨rfl, rfl⟩
  | cons e es ih =>
    have hone : (b.addExtension e).socket = b.socket ∧ (b.addExtension e).buffer = b.buffer := by
      unfold Builder.addExtension
      split_ifs <;> exact ⟨rfl, rfl⟩
    obtain ⟨hs, hb⟩ := ih (b.addExtension e)
    exact ⟨hs.trans hone.1, hb.trans hone.2⟩

theorem receiver_intoBuilder {c : Client E} (hc : Clean c.socket.reader) :
    let receiver := c.intoBuilder.finish.2.1
    receiver.stream = c.buffer ++ bytes c.socket.reader ∧
      Receiver.HeaderSpec receiver receiver.receiveHeader := by
  intro receiver
  obtain ⟨hsocket, hbuffer⟩ := addExtensions_frame
    ((Builder.new c.socket.reader .client).setBuffer c.buffer) c.extensions
  have hreader : receiver.reader = c.socket.reader := hsocket
  have hstream : receiver.buffer = c.buffer := hbuffer
  refine ⟨by rw [Receiver.stream, hreader, hstream], Receiver.receiveHeader_spec ?_⟩
  rw [hreader]
  exact hc

/-- What is seen of a handshake: its result and the extensions. -/
def seen (out : Option (Except Error ServerResponse × Client E)) :
    Option (Except Error ServerResponse × List E) := out.map fun r => (r.1, r.2.extensions)

/-- What the client decodes the head of a response to, with its extensions as they were before. -/
def Client.decodeHead (c : Client E) (http : Http.Parser) (sha1 : List UInt8 → Vector UInt8 20)
    (nonce : Vector UInt8 16) (head : List UInt8) : Except Error Parsing × Client E :=
  { c with nonce := .ofNonce nonce, buffer := head }.decodeResponse http sha1

theorem handshake_spec (hhead : ReadsResponse http head response)
    (sha1 : List UInt8 → Vector UInt8 20) (c : Client E) (nonce : Vector UInt8 16)
    (tail : List UInt8) :
    (∃ e, ∀ reader, ∃ c', (c.withReader reader).handshake http sha1 nonce =
        some (.error (.io e), c') ∧ c'.extensions = c.extensions) ∨
    ∀ r, Clean r → bytes r = head ++ tail → ResponseSpec tail (c.decodeHead http sha1 nonce head)
      ((c.withReader r).handshake http sha1 nonce) := by
  rcases handshake_cases http sha1 c nonce with herror | ⟨wire, outcomes, hr⟩
  · exact Or.inl herror
  · right
    intro r hc hb
    have hpos : 0 < head.length := List.length_pos_iff.mpr hhead.ne_nil
    rw [hr, hb]
    have hclean : Clean (Socket.mk r wire outcomes).reader := hc
    exact readResponse_spec hhead (c := { c with nonce := .ofNonce nonce, buffer := head }) rfl _
      hclean hpos hb (by omega)

/-- **No byte is lost after the handshake.** The result and the extensions do not depend on the
chunks. If the handshake succeeds, what is left in the buffer and in the socket is all that follows
the head; the extensions were configured by decoding the head once; and the receiver of the
connection begins at the first byte after the head. -/
theorem handshake_tail (hhead : ReadsResponse http head response) (c : Client E)
    (nonce : Vector UInt8 16) (tail : List UInt8) :
    (∀ r₁ r₂, Clean r₁ → Clean r₂ → bytes r₁ = head ++ tail → bytes r₂ = head ++ tail →
      seen ((c.withReader r₁).handshake http sha1 nonce) =
        seen ((c.withReader r₂).handshake http sha1 nonce)) ∧
    ∀ r, Clean r → bytes r = head ++ tail → ∀ value c',
      (c.withReader r).handshake http sha1 nonce = some (.ok value, c') →
      c'.buffer ++ bytes c'.socket.reader = tail ∧
      (c.decodeHead http sha1 nonce head).1 = .ok (.done value head.length) ∧
      c'.extensions = (c.decodeHead http sha1 nonce head).2.extensions ∧
      let receiver := c'.intoBuilder.finish.2.1
      receiver.stream = tail ∧ Receiver.HeaderSpec receiver receiver.receiveHeader := by
  have hparsed : http.response head = .ok (.complete response head.length) := by
    simpa using hhead.complete []
  have hdecoded := decodeResponse_complete sha1
    (c := { c with nonce := .ofNonce nonce, buffer := head }) hparsed
  rcases handshake_spec hhead sha1 c nonce tail with ⟨e, he⟩ | hspec
  · constructor
    · intro r₁ r₂ _ _ _ _
      obtain ⟨c₁, h₁, hext₁⟩ := he r₁
      obtain ⟨c₂, h₂, hext₂⟩ := he r₂
      simp [seen, h₁, h₂, hext₁, hext₂]
    · intro r _ _ value c' h
      obtain ⟨c₁, h₁, -⟩ := he r
      cases h₁.symm.trans h
  · constructor
    · intro r₁ r₂ hc₁ hc₂ hb₁ hb₂
      rcases hdecoded with ⟨e, he⟩ | ⟨value, hv⟩
      · obtain ⟨c₁, h₁, hext₁⟩ := (hspec r₁ hc₁ hb₁).error he
        obtain ⟨c₂, h₂, hext₂⟩ := (hspec r₂ hc₂ hb₂).error he
        simp [seen, h₁, h₂, hext₁, hext₂]
      · obtain ⟨c₁, h₁, hext₁, -⟩ := (hspec r₁ hc₁ hb₁).done hv
        obtain ⟨c₂, h₂, hext₂, -⟩ := (hspec r₂ hc₂ hb₂).done hv
        simp [seen, h₁, h₂, hext₁, hext₂]
    · intro r hc hb value c' h
      rcases hdecoded with ⟨e, he⟩ | ⟨value', hv⟩
      · obtain ⟨c₁, h₁, -⟩ := (hspec r hc hb).error he
        cases h₁.symm.trans h
      · obtain ⟨c₁, h₁, hext, hclean, htail⟩ := (hspec r hc hb).done hv
        cases h₁.symm.trans h
        exact ⟨htail, hv, hext, (receiver_intoBuilder hclean).1.trans htail,
          (receiver_intoBuilder hclean).2⟩

end

/-- The head of a response that accepts. -/
def acceptHead : List UInt8 :=
  utf8 "HTTP/1.1 101 Switching Protocols\r\nUpgrade: websocket\r\nConnection: upgrade\r\n" ++
    utf8 "Sec-WebSocket-Accept: ICX+Yqv66kxgM0FcWaLWlFLwTAI=\r\n\r\n"

/-- The response with this head. -/
def acceptResponse : Http.Response :=
  ⟨some 1, some 101, [⟨"Upgrade", utf8 "websocket"⟩, ⟨"Connection", utf8 "upgrade"⟩,
    ⟨"Sec-WebSocket-Accept", utf8 "ICX+Yqv66kxgM0FcWaLWlFLwTAI="⟩]⟩

theorem readsResponse_acceptHead : ReadsResponse lineParser acceptHead acceptResponse where
  ne_nil := by decide
  needMore := by
    have h : ∀ n < acceptHead.length, lineParser.response (acceptHead.take n) = .ok .needMore := by
      decide +kernel
    intro n hn
    exact h n hn
  complete := by
    have h : parseHead statusLine acceptHead = .ok (.complete acceptResponse acceptHead.length) := by
      decide +kernel
    have hparser : lineParser.response = parseHead statusLine := rfl
    intro rest
    rw [hparser, parseHead_append h]

def plainClient : Client Empty := .new ⟨[], [], []⟩ "example.com" "/"

/-- A ping that is cut in two is still there after the handshake. -/
theorem handshake_tail_ping :
    let reader : Source UInt8 := [.data (acceptHead ++ [0x89]), .data [0]]
    (ReadsResponse lineParser acceptHead acceptResponse ∧ Clean reader ∧
      bytes reader = acceptHead ++ [0x89, 0]) ∧
    ∃ c', (plainClient.withReader reader).handshake lineParser Sha1.sha1 (Vector.replicate 16 0) =
        some (.ok (.accepted none), c') ∧
      c'.buffer ++ bytes c'.socket.reader = [0x89, 0] ∧
      c'.intoBuilder.finish.2.1.stream = [0x89, 0] := by
  intro reader
  have hclean : Clean reader := by simp [reader, Clean]
  have hbytes : bytes reader = acceptHead ++ [0x89, 0] := by simp [reader]
  have hok : seen ((plainClient.withReader reader).handshake lineParser Sha1.sha1
      (Vector.replicate 16 0)) = some (.ok (.accepted none), []) := by decide +kernel
  refine ⟨⟨readsResponse_acceptHead, hclean, hbytes⟩, ?_⟩
  obtain ⟨⟨result, c'⟩, hhand, hseen⟩ := Option.map_eq_some_iff.mp hok
  obtain rfl : result = .ok (.accepted none) := congrArg Prod.fst hseen
  obtain ⟨htail, -, -, hstream, -⟩ := (handshake_tail readsResponse_acceptHead plainClient
    (Vector.replicate 16 0) [0x89, 0]).2 reader hclean hbytes _ c' hhand
  exact ⟨c', hhand, htail, hstream⟩

end Soketto.Handshake
