import Soketto.Opening

/-!
# The answers of a server

What a client makes of an answer, whichever the program of the server has chosen: a request may be
accepted with any key and any protocol, and rejected with any status code.

* `announced`: the status code that is written for a rejection; `statusPhrase_eq`.
* `Response.meaning`: what a client makes of the answer.
* **`decodeHead_encodeResponse`**: it decodes the head to that; **`answer_understood`**: the handshake
  ends with it, whatever the chunks.
-/

set_option autoImplicit false

namespace Soketto.Handshake

open Text
open Chunked (Source Clean bytes)

/-! ## Status codes -/

/-- The status code in the response to a rejected request: codes without a phrase are not written. -/
def announced (code : UInt16) : UInt16 :=
  if statusPhrase code.toNat = statusPhrase 500 then 500 else code

theorem statusPhrase_of_lt {n : ℕ} (h : 511 < n) : statusPhrase n = statusPhrase 500 := by
  unfold statusPhrase
  split <;> first | omega | rfl

/-- **A phrase** begins with the code that is announced, and may stand in a head. -/
theorem statusPhrase_eq (code : UInt16) :
    (100 ≤ (announced code).toNat ∧ (announced code).toNat < 1000) ∧
      ∃ phrase, utf8 (statusPhrase code.toNat) = codeDigits (announced code).toNat ++ utf8 " " ++ phrase ∧
        ∀ b ∈ phrase, isValueByte b = true := by
  have hall : ∀ n < 512, statusPhrase n ≠ statusPhrase 500 →
      (100 ≤ n ∧ n < 1000) ∧
        utf8 (statusPhrase n) = codeDigits n ++ utf8 " " ++ (utf8 (statusPhrase n)).drop 4 ∧
        ((utf8 (statusPhrase n)).drop 4).all isValueByte = true := by decide +kernel
  have hdefault : utf8 (statusPhrase 500) =
      codeDigits (500 : UInt16).toNat ++ utf8 " " ++ utf8 "Internal Server Error" ∧
        (utf8 "Internal Server Error").all isValueByte = true := by decide +kernel
  unfold announced
  by_cases hcode : statusPhrase code.toNat = statusPhrase 500
  · rw [if_pos hcode, hcode]
    exact ⟨by decide, _, hdefault.1, List.all_eq_true.mp hdefault.2⟩
  · have hlt : code.toNat < 512 := by
      by_contra hge
      exact hcode (statusPhrase_of_lt (by omega))
    obtain ⟨hrange, heq, hvalue⟩ := hall _ hlt hcode
    rw [if_neg hcode]
    exact ⟨hrange, _, heq, List.all_eq_true.mp hvalue⟩

/-! ## What answers mean -/

/-- What a client that has sent `key` and offered `protocols` makes of an answer. -/
def Response.meaning (sha1 : List UInt8 → Vector UInt8 20) (key : WebSocketKey)
    (protocols : List String) : Response → Except Error ServerResponse
  | .accept k p =>
    if generateAcceptKey sha1 key ≠ generateAcceptKey sha1 k then .error .invalidSecWebSocketAccept
    else if p.all (· ∈ protocols) then .ok (.accepted p) else .error .unsolicitedProtocol
  | .reject code =>
    if announced code = 101 then .error (.headerNotFound "Upgrade")
    else if Client.isRedirect (announced code) then .error (.headerNotFound "Location")
    else .ok (.rejected (announced code))

section Client

variable {X Y : Type} [Extension X] [Extension Y] {http : Http.Parser}
  {sha1 : List UInt8 → Vector UInt8 20} {c : Client X} {s : Server Y} {tail : List UInt8}

theorem encodeResponse_reject (s : Server Y) (sha1 : List UInt8 → Vector UInt8 20) (code : UInt16) :
    ∃ phrase, s.encodeResponse sha1 (.reject code) = responseHead (announced code) phrase [] ∧
      ∀ b ∈ phrase, isValueByte b = true := by
  obtain ⟨-, phrase, heq, hvalue⟩ := statusPhrase_eq code
  refine ⟨phrase, ?_, hvalue⟩
  rw [Server.encodeResponse, heq, responseHead]
  simp [Client.headersBytes]

theorem readsResponse_answer (hhttp : StreamsHeads http) (hs : ∀ e ∈ s.extensions, WellFormed e)
    (r : Response) (hr : ∀ k p, r = .accept k p → ∀ q ∈ p, IsToken q) :
    ∃ response, ReadsResponse http (s.encodeResponse sha1 r) response ∧ response.version = some 1 ∧
      (∀ k p, r = .accept k p → response.code = some 101 ∧
        response.headers = s.responseHeaders sha1 k p) ∧
      ∀ code, r = .reject code → response.code = some (announced code) ∧ response.headers = [] := by
  cases r with
  | accept k p =>
    refine ⟨_, readsResponse_encodeResponse hhttp hs (hr k p rfl) k, rfl, ?_, ?_⟩
    · rintro _ _ ⟨⟩
      exact ⟨rfl, rfl⟩
    · rintro _ ⟨⟩
  | reject code =>
    obtain ⟨phrase, heq, hvalue⟩ := encodeResponse_reject s sha1 code
    have hcode := (statusPhrase_eq code).1
    have hvalid : ∀ h ∈ ([] : List Http.Header), ValidHeader h := fun h hh => absurd hh List.not_mem_nil
    rw [heq]
    refine ⟨_, ⟨?_, fun hn => hhttp.response_needMore hcode hvalue hvalid hn, fun rest =>
      hhttp.response_append (hhttp.response hcode hvalue hvalid (Nat.zero_le _)) rest⟩, rfl, ?_, ?_⟩
    · simp [responseHead, codeDigits]
    · rintro _ _ ⟨⟩
    · rintro _ ⟨⟩
      exact ⟨rfl, rfl⟩

theorem find_utf8_of_not_mem {ps : List String} {p : String} (h : p ∉ ps) :
    (ps.find? fun x => utf8 x == utf8 p) = none := by
  rw [List.find?_eq_none]
  intro x hx heq
  rw [beq_iff_eq] at heq
  exact h (utf8_injective heq ▸ hx)

theorem checkAccepted_responseHeaders (hc : ∀ e ∈ c.extensions, Extension.Always TokenParams WellFormed e)
    (hs : ∀ e ∈ s.extensions, WellFormed e) (sha1 : List UInt8 → Vector UInt8 20) (k : WebSocketKey)
    (p : Option String) :
    ∃ extensions, c.checkAccepted sha1 (s.responseHeaders sha1 k p) =
      (if generateAcceptKey sha1 c.nonce ≠ generateAcceptKey sha1 k then .error .invalidSecWebSocketAccept
        else if p.all (· ∈ c.protocols) then .ok p else .error .unsolicitedProtocol,
        { c with extensions }) := by
  obtain ⟨extensions, hext, -⟩ := configureHeaders_ok (fun e he => he.configure)
    (offering_responseHeaders hs sha1 k p) hc
  have hupgrade : expectAsciiHeader (s.responseHeaders sha1 k p) "Upgrade" "websocket" = .ok () :=
    expectAsciiHeader_of_text "websocket" (by simp [Server.responseHeaders]) (by decide)
  have hconnection : expectAsciiHeader (s.responseHeaders sha1 k p) "Connection" "upgrade" = .ok () :=
    expectAsciiHeader_of_text "upgrade" (by simp [Server.responseHeaders]) (by decide)
  have hkey : ∀ f : List UInt8 → Except Error Unit,
      withFirstHeader (s.responseHeaders sha1 k p) "Sec-WebSocket-Accept" f =
        f (generateAcceptKey sha1 k).toList := by
    intro f
    have hother : eqIgnoreAsciiCase "Server" "Sec-WebSocket-Accept" = false ∧
        eqIgnoreAsciiCase "Upgrade" "Sec-WebSocket-Accept" = false ∧
        eqIgnoreAsciiCase "Connection" "Sec-WebSocket-Accept" = false ∧
        eqIgnoreAsciiCase "Sec-WebSocket-Accept" "Sec-WebSocket-Accept" = true := by decide
    refine withFirstHeader_of_find (h := ⟨"Sec-WebSocket-Accept", (generateAcceptKey sha1 k).toList⟩) ?_
    simp only [Server.responseHeaders, List.cons_append, List.find?_cons, hother]
  have hours : base64 (sha1 (c.nonce.toList ++ KEY)).toList = (generateAcceptKey sha1 c.nonce).toList :=
    rfl
  rw [Client.checkAccepted]
  simp only [hupgrade, hconnection, hkey, hours, hext, find_responseHeaders]
  by_cases hsame : generateAcceptKey sha1 c.nonce = generateAcceptKey sha1 k
  · refine ⟨extensions, ?_⟩
    rw [if_neg (not_not.mpr hsame), if_neg (not_not.mpr (congrArg Vector.toList hsame))]
    cases p with
    | none => rfl
    | some q =>
      by_cases hq : q ∈ c.protocols
      · have hfind := find_utf8 hq
        simp only [Option.map_some, Option.all_some, hfind, hq]
        rfl
      · have hfind := find_utf8_of_not_mem hq
        simp only [Option.map_some, Option.all_some, hfind, hq]
        rfl
  · have hne : (generateAcceptKey sha1 c.nonce).toList ≠ (generateAcceptKey sha1 k).toList :=
      fun h => hsame (Vector.toList_inj.mp h)
    refine ⟨c.extensions, ?_⟩
    rw [if_pos hsame, if_pos hne]
    rfl

/-- **What the head of an answer is decoded to.** -/
theorem decodeHead_encodeResponse (hhttp : StreamsHeads http) (hs : ∀ e ∈ s.extensions, WellFormed e)
    (hc : ∀ e ∈ c.extensions, Extension.Always TokenParams WellFormed e) (nonce : Vector UInt8 16)
    (r : Response) (hr : ∀ k p, r = .accept k p → ∀ q ∈ p, IsToken q) :
    ∃ extensions, c.decodeHead http sha1 nonce (s.encodeResponse sha1 r) =
        ((r.meaning sha1 (.ofNonce nonce) c.protocols).map
            (Parsing.done · (s.encodeResponse sha1 r).length),
          { c with nonce := .ofNonce nonce, buffer := s.encodeResponse sha1 r, extensions }) ∧
      ∀ code, r = .reject code → extensions = c.extensions := by
  obtain ⟨response, hreads, hversion, haccept, hreject⟩ := readsResponse_answer hhttp hs r hr
  have hparse : http.response (s.encodeResponse sha1 r) =
      .ok (.complete response (s.encodeResponse sha1 r).length) := by
    simpa using hreads.complete []
  rw [Client.decodeHead, Client.decodeResponse, hparse]
  dsimp only
  rw [if_neg (by rw [hversion]; exact not_not.mpr rfl)]
  cases r with
  | accept k p =>
    obtain ⟨hcode, hheaders⟩ := haccept k p rfl
    obtain ⟨extensions, hchecked⟩ := checkAccepted_responseHeaders (c := { c with
      nonce := .ofNonce nonce, buffer := s.encodeResponse sha1 (.accept k p) }) hc hs sha1 k p
    refine ⟨extensions, ?_, fun _ h => by cases h⟩
    rw [if_pos hcode, hheaders, hchecked, Response.meaning]
    split_ifs <;> rfl
  | reject code =>
    obtain ⟨hcode, hheaders⟩ := hreject code rfl
    rw [hcode, hheaders, Response.meaning]
    by_cases h101 : announced code = 101
    · rw [if_pos h101, if_pos (congrArg some h101)]
      exact ⟨c.extensions, rfl, fun _ _ => rfl⟩
    · have hne : some (announced code) ≠ some 101 := fun h => h101 (Option.some.inj h)
      rw [if_neg h101, if_neg hne, Option.getD_some]
      split_ifs
      · exact ⟨c.extensions, rfl, fun _ _ => rfl⟩
      · exact ⟨c.extensions, rfl, fun _ _ => rfl⟩

end Client

/-- **A client understands the answer** of a server, whichever the program has chosen and however it is
cut into chunks, and leaves what follows it: it is accepted only with its own key and a protocol that it
has offered. A code without a phrase is announced as 500; a rejection with 101 or with the code of a
redirection is an error, since the server writes no headers for it. -/
theorem answer_understood {X Y : Type} [Extension X] [Extension Y] {http : Http.Parser}
    {sha1 : List UInt8 → Vector UInt8 20} (hhttp : StreamsHeads http) {c : Client X} {s : Server Y}
    (hs : ∀ e ∈ s.extensions, WellFormed e)
    (hc : ∀ e ∈ c.extensions, Extension.Always TokenParams WellFormed e)
    (hcw : c.socket.outcomes = []) (hsw : s.socket.outcomes = []) (nonce : Vector UInt8 16) (r : Response)
    (hr : ∀ k p, r = .accept k p → ∀ q ∈ p, IsToken q) :
    ∃ head s', s.sendResponse sha1 r = (.ok (), s') ∧ s'.socket.wire = s.socket.wire ++ head ∧
      ∀ {rc tail}, Clean rc → bytes rc = head ++ tail →
        ∃ c', (c.withReader rc).handshake http sha1 nonce =
            some (r.meaning sha1 (.ofNonce nonce) c.protocols, c') ∧
          c'.socket.wire = c.socket.wire ++ c.request nonce ∧
          (∀ code, r = .reject code → c'.extensions = c.extensions) ∧
          ∀ value, r.meaning sha1 (.ofNonce nonce) c.protocols = .ok value →
            c'.buffer ++ bytes c'.socket.reader = tail := by
  refine ⟨s.encodeResponse sha1 r, _, sendResponse_ok hsw r, rfl, fun {rc tail} hrc hbytes => ?_⟩
  obtain ⟨response, hreads, -⟩ := readsResponse_answer hhttp hs r hr
  obtain ⟨extensions, hdecode, hsame⟩ := decodeHead_encodeResponse hhttp hs hc nonce r hr
  obtain ⟨hspec, hwire⟩ := handshake_head hreads hcw nonce hrc hbytes
  rw [hdecode] at hspec
  rcases hmeaning : r.meaning sha1 (.ofNonce nonce) c.protocols with e | value
  · obtain ⟨c', hrun, hext⟩ := hspec.error (by rw [hmeaning]; rfl)
    exact ⟨c', hrun, hwire hrun, fun code h => hext.trans (hsame code h), fun _ h => by cases h⟩
  · obtain ⟨c', hrun, hext, -, htail⟩ := hspec.done (by rw [hmeaning]; rfl)
    exact ⟨c', hrun, hwire hrun, fun code h => hext.trans (hsame code h), fun _ _ => htail⟩

/-- The server wants to redirect, and the client does not learn where to. -/
theorem answer_understood_found :
    ∃ s' c', plainServer.sendResponse Sha1.sha1 (.reject 302) = (.ok (), s') ∧
      (plainClient.withReader [.data s'.socket.wire]).handshake lineParser Sha1.sha1
        (Vector.replicate 16 0) = some (.error (.headerNotFound "Location"), c') := by
  obtain ⟨head, s', hsend, hwire, hclient⟩ := @answer_understood Empty Empty _ _ lineParser Sha1.sha1
    streamsHeads_lineParser plainClient plainServer (by simp [plainServer, Server.new])
    (by simp [plainClient, Client.new]) rfl rfl (Vector.replicate 16 0) (.reject 302)
    (fun _ _ h => by cases h)
  obtain rfl : s'.socket.wire = head := hwire
  obtain ⟨c', hrun, -⟩ := @hclient [.data s'.socket.wire] [] (by simp [Clean]) (by simp)
  have hmeaning : (Response.reject 302).meaning Sha1.sha1 (.ofNonce (Vector.replicate 16 0))
      plainClient.protocols = .error (.headerNotFound "Location") := by decide +kernel
  exact ⟨s', c', hsend, hmeaning ▸ hrun⟩

end Soketto.Handshake
