import Soketto.Handshake.Failures
import Soketto.Handshake.Parser
import Soketto.HeadSearch

/-!
# The server reads a request

A request comes in chunks. The server reads until it has the end of a head, or 8192 bytes, and gives
all that it has then to the parser.

* `headEnd`: how many bytes of a stream it waits for; **`readHead_spec`**: what it then has.
* `outcomeAt`: the outcome when the parser is given the first `n` bytes;
  **`receiveRequest_iff`**: the outcomes that a stream can have.
* **`independent_iff`**: when the outcome does not depend on the chunks.
-/

set_option autoImplicit false

namespace Soketto.Handshake

open Text Search
open Chunked (Source IoError Clean bytes)

/-! ## The end of the head -/

/-- The bytes the server waits for: up to the first empty line, and at most 8192. -/
def headEnd (bs : List UInt8) : ℕ := min ((firstEnd headersTail bs).getD maxHeadersSize) maxHeadersSize

theorem headEnd_le (bs : List UInt8) : headEnd bs ≤ maxHeadersSize := Nat.min_le_right _ _

theorem headEnd_pos (bs : List UInt8) : 4 ≤ headEnd bs := by
  have hlen : headersTail.length = 4 := by rw [headersTail_eq]; rfl
  refine Nat.le_min.mpr ⟨?_, by decide⟩
  cases h : firstEnd headersTail bs with
  | none => exact (show 4 ≤ 8192 by decide)
  | some e =>
    have he := length_le_firstEnd h
    rw [hlen] at he
    exact he

theorem headEnd_le_iff (bs : List UInt8) (n : ℕ) :
    headEnd bs ≤ n ↔ headersTail <:+: bs.take (min n maxHeadersSize) ∨ maxHeadersSize ≤ n := by
  rw [infix_take_iff headersTail_ne_nil, headEnd]
  cases h : firstEnd headersTail bs with
  | none => simp
  | some e =>
    simp only [Option.getD_some, Option.mem_def, Option.some.injEq, exists_eq_left']
    omega

/-! ## Reading -/

section Read

variable {E : Type} {bs : List UInt8} {i : ℕ} {s : Server E}

/-- The server has read `i` bytes of the stream, and the others are still to come. -/
structure HasRead (bs : List UInt8) (i : ℕ) (s : Server E) : Prop where
  clean : Clean s.socket.reader
  buffer : s.buffer = bs.take i
  rest : bytes s.socket.reader = bs.drop i
  le : i ≤ bs.length

theorem HasRead.received (h : HasRead bs i s) {reader : Source UInt8} {got : List UInt8}
    (hr : Chunked.read blockSize s.socket.reader = (.ok got, reader)) :
    HasRead bs (i + got.length) (s.received reader got) := by
  obtain ⟨hb, -, -⟩ := Chunked.read_ok hr
  rw [h.rest] at hb
  obtain ⟨got', reader', hr', hc⟩ := h.clean.read (n := blockSize)
  rw [hr] at hr'
  cases hr'
  have hle := h.le
  have hlen : bs.length - i = got.length + (bytes reader).length := by
    rw [← List.length_drop, hb, List.length_append]
  refine ⟨hc, ?_, ?_, by omega⟩
  · rw [Server.received, h.buffer, List.take_add, hb, List.take_left]
  · rw [Server.received, ← List.drop_drop, hb, List.drop_left]

theorem HasRead.length (h : HasRead bs i s) : s.buffer.length = i := by
  rw [h.buffer, List.length_take, Nat.min_eq_left h.le]

theorem HasRead.hasEnough_iff (h : HasRead bs i s) : HasEnough s.buffer ↔ headEnd bs ≤ i := by
  rw [headEnd_le_iff, HasEnough, h.length, h.buffer, List.take_take,
    Nat.min_eq_left (Nat.min_le_left _ _)]

/-- **One round** of the server that did not have enough before. -/
theorem readHead_round (h : HasRead bs i s) (hi : i < headEnd bs) {reader : Source UInt8}
    {got : List UInt8} (hr : Chunked.read blockSize s.socket.reader = (.ok got, reader))
    (hgot : got ≠ []) (fuel : ℕ) {skip : ℕ} (hskip : skip ≤ i - 4) :
    Server.readHead (fuel + 1) skip s =
      if headEnd bs ≤ i + got.length then some (.ok (), s.received reader got)
      else Server.readHead fuel (i + got.length - 4) (s.received reader got) := by
  have hnext := h.received hr
  have hno : ¬HasEnough s.buffer := by
    rw [h.hasEnough_iff]
    omega
  have hskip' : skip ≤ s.buffer.length - 4 := by
    rw [h.length]
    exact hskip
  rcases readHead_step fuel hno hskip' hgot hr with ⟨henough, hround⟩ | ⟨henough, hround⟩
  · rw [hround, if_pos (hnext.hasEnough_iff.mp henough)]
  · rw [hround, if_neg fun hle => henough (hnext.hasEnough_iff.mpr hle)]
    exact congrArg (fun n => Server.readHead fuel (n - 4) _) hnext.length

/-- What `readHead` leaves of a stream: it has found what it waits for, and at most what one read
brings beyond it, or the stream is too short. -/
inductive HeadSpec (bs : List UInt8) (s : Server E) :
    Option (Except Error Unit × Server E) → Prop
  | found (s' : Server E) (n : ℕ) (h : HasRead bs n s') (hle : headEnd bs ≤ n)
      (hlt : n < headEnd bs + blockSize) (hp : s'.protocols = s.protocols)
      (he : s'.extensions = s.extensions) : HeadSpec bs s (some (.ok (), s'))
  | ended (s' : Server E) (hlt : bs.length < headEnd bs) :
      HeadSpec bs s (some (.error (.io .unexpectedEof), s'))

theorem HeadSpec.of_received {reader : Source UInt8} {got : List UInt8}
    {r : Option (Except Error Unit × Server E)} (h : HeadSpec bs (s.received reader got) r) :
    HeadSpec bs s r := by
  cases h with
  | found s' n h hle hlt hp he => exact .found s' n h hle hlt hp he
  | ended s' hlt => exact .ended s' hlt

/-- **All rounds.** -/
theorem readHead_spec (fuel : ℕ) (h : HasRead bs i s) (hi : i < headEnd bs)
    (hfuel : bs.length < fuel + i) {skip : ℕ} (hskip : skip ≤ i - 4) :
    HeadSpec bs s (Server.readHead fuel skip s) := by
  induction fuel generalizing i s skip with
  | zero =>
    have := h.le
    omega
  | succ fuel ih =>
    obtain ⟨got, reader, hr, -⟩ := h.clean.read (n := blockSize)
    obtain ⟨hb, hlen, hnil⟩ := Chunked.read_ok hr
    by_cases hgot : got = []
    · have hend : bs.length = i := by
        have hle := h.le
        have hdrop := hnil (by decide) hgot
        rw [h.rest, List.drop_eq_nil_iff] at hdrop
        omega
      subst hgot
      rw [Server.readHead, read_eq_error.mpr (.inr ⟨hr, rfl, rfl⟩)]
      exact .ended _ (hend ▸ hi)
    · rw [readHead_round h hi hr hgot fuel hskip]
      have hpos : 0 < got.length := List.length_pos_iff.mpr hgot
      split_ifs with hle
      · exact .found _ _ (h.received hr) hle (by omega) rfl rfl
      · exact (ih (h.received hr) (by omega) (by omega) (le_refl _)).of_received

end Read

/-! ## Outcomes -/

section Outcome

variable {E : Type} [Extension E] {http : Http.Parser} {s : Server E} {bs : List UInt8} {n : ℕ}

/-- The outcome of reading a request from a source. -/
def outcome (http : Http.Parser) (s : Server E) (reader : Source UInt8) :
    Option (Except Error ClientRequest) :=
  ({ s with socket := { s.socket with reader } }.receiveRequest http).map Prod.fst

/-- The outcome when the parser is given the first `n` bytes. -/
def outcomeAt (http : Http.Parser) (s : Server E) (bs : List UInt8) (n : ℕ) :
    Except Error ClientRequest := ({ s with buffer := bs.take n }.decodeRequest http).1

theorem checkRequest_congr {t : Server E} (hp : t.protocols = s.protocols)
    (he : t.extensions = s.extensions) (request : Http.Request) :
    (t.checkRequest request).1 = (s.checkRequest request).1 := by
  unfold Server.checkRequest
  rw [hp, he]
  dsimp only
  split
  · rfl
  · split <;> rfl

theorem decodeRequest_congr {t : Server E} (hp : t.protocols = s.protocols)
    (he : t.extensions = s.extensions) (hb : t.buffer = s.buffer) :
    (t.decodeRequest http).1 = (s.decodeRequest http).1 := by
  unfold Server.decodeRequest
  rw [hb]
  split
  · rfl
  · rfl
  · exact checkRequest_congr hp he _

theorem outcome_of_readHead {reader : Source UInt8} {s' : Server E}
    (hr : Server.readHead ((bytes reader).length + 1) 0
      { s with socket := { s.socket with reader }, buffer := [] } = some (.ok (), s'))
    (hp : s'.protocols = s.protocols) (he : s'.extensions = s.extensions)
    (hb : s'.buffer = bs.take n) :
    outcome http s reader = some (outcomeAt http s bs n) := by
  rw [outcome, Server.receiveRequest, hr]
  exact congrArg some (decodeRequest_congr hp he hb)

omit [Extension E] in
theorem hasRead_start {reader : Source UInt8} (hc : Clean reader) (hb : bytes reader = bs) :
    HasRead bs 0 { s with socket := { s.socket with reader }, buffer := [] } :=
  ⟨hc, rfl, hb, Nat.zero_le _⟩

/-- **The outcomes of a stream**: the stream is too short, or it is the outcome for what the server
waits for and not more than a read beyond it. -/
theorem outcome_cases {reader : Source UInt8} (hc : Clean reader) (hb : bytes reader = bs) :
    (bs.length < headEnd bs ∧ outcome http s reader = some (.error (.io .unexpectedEof))) ∨
    ∃ n, headEnd bs ≤ n ∧ n ≤ bs.length ∧ n < headEnd bs + blockSize ∧
      outcome http s reader = some (outcomeAt http s bs n) := by
  have hpos := headEnd_pos bs
  have hspec := readHead_spec ((bytes reader).length + 1) (hasRead_start (s := s) hc hb) (by omega)
    (by rw [hb]; omega) (le_refl 0)
  generalize hr : Server.readHead ((bytes reader).length + 1) 0
    { s with socket := { s.socket with reader }, buffer := [] } = r at hspec
  cases hspec with
  | found s' n h hle hlt hp he =>
    exact Or.inr ⟨n, hle, h.le, hlt, outcome_of_readHead hr hp he h.buffer⟩
  | ended s' hlt =>
    refine Or.inl ⟨hlt, ?_⟩
    rw [outcome, Server.receiveRequest, hr]
    rfl

/-- The stream in three chunks: the first is one byte too short for the server. -/
def chunksFor (bs : List UInt8) (n : ℕ) : Source UInt8 :=
  [.data (bs.take (headEnd bs - 1)), .data ((bs.take n).drop (headEnd bs - 1)), .data (bs.drop n)]

theorem clean_chunksFor (bs : List UInt8) (n : ℕ) : Clean (chunksFor bs n) := by
  intro e he
  simp [chunksFor] at he

theorem bytes_chunksFor (hle : headEnd bs ≤ n) : bytes (chunksFor bs n) = bs := by
  have htake : bs.take (headEnd bs - 1) = (bs.take n).take (headEnd bs - 1) := by
    rw [List.take_take, Nat.min_eq_left (by omega)]
  rw [chunksFor, Chunked.bytes_data, Chunked.bytes_data, Chunked.bytes_data, Chunked.bytes_nil,
    List.append_nil, htake, ← List.append_assoc, List.take_append_drop, List.take_append_drop]

/-- **Every one of these is an outcome.** -/
theorem outcome_chunksFor (hle : headEnd bs ≤ n) (hn : n ≤ bs.length)
    (hlt : n < headEnd bs + blockSize) :
    outcome http s (chunksFor bs n) = some (outcomeAt http s bs n) := by
  have hpos := headEnd_pos bs
  have hmax := headEnd_le bs
  have hsize : maxHeadersSize = blockSize := rfl
  have hlen₁ : (bs.take (headEnd bs - 1)).length = headEnd bs - 1 := by
    rw [List.length_take]
    omega
  have hlen₂ : ((bs.take n).drop (headEnd bs - 1)).length = n - (headEnd bs - 1) := by
    rw [List.length_drop, List.length_take]
    omega
  have hne₁ : bs.take (headEnd bs - 1) ≠ [] := List.length_pos_iff.mp (by omega)
  have hne₂ : (bs.take n).drop (headEnd bs - 1) ≠ [] := List.length_pos_iff.mp (by omega)
  have hbytes := bytes_chunksFor hle
  have hstart := hasRead_start (s := s) (clean_chunksFor bs n) hbytes
  -- the first read is too short, the second reaches byte `n`
  have hread₁ : Chunked.read blockSize (chunksFor bs n) = _ := read_data hne₁ (by omega) _
  have hread₂ : Chunked.read blockSize (.data [] :: [.data ((bs.take n).drop (headEnd bs - 1)),
      .data (bs.drop n)]) = _ := read_data hne₂ (by omega) _
  have hmid := hstart.received hread₁
  have hend := hmid.received hread₂
  obtain ⟨fuel, hfuel⟩ : ∃ fuel, (bytes (chunksFor bs n)).length = fuel + 1 :=
    ⟨bs.length - 1, by rw [hbytes]; omega⟩
  have hrounds := readHead_round hstart (by omega) hread₁ hne₁ (fuel + 1) (le_refl _)
  rw [if_neg (by omega), readHead_round hmid (by omega) hread₂ hne₂ fuel (le_refl _),
    if_pos (by omega), ← hfuel] at hrounds
  refine outcome_of_readHead hrounds rfl rfl ?_
  rw [hend.buffer, hlen₁, hlen₂]
  congr 1
  omega

end Outcome

/-! ## Independence of the chunks -/

/-- The parser does not take back a request that it has read when more bytes follow, and does not
read beyond its input. -/
structure StableRequests (http : Http.Parser) : Prop where
  append {bs : List UInt8} {request : Http.Request} {offset : ℕ}
    (h : http.request bs = .ok (.complete request offset)) (more : List UInt8) :
    http.request (bs ++ more) = .ok (.complete request offset)
  offset_le {bs : List UInt8} {request : Http.Request} {offset : ℕ}
    (h : http.request bs = .ok (.complete request offset)) : offset ≤ bs.length

/-- The results of parsing, but for what was read and the error. -/
inductive ParseKind where
  | failed
  | needMore
  | complete
  deriving DecidableEq

def parseKind : Except BoxedError (Http.Status Http.Request) → ParseKind
  | .error _ => .failed
  | .ok .needMore => .needMore
  | .ok (.complete _ _) => .complete

/-- The same request, or errors of the same kind. -/
def SameOutcome : Except Error ClientRequest → Except Error ClientRequest → Prop
  | .ok r₁, .ok r₂ => r₁ = r₂
  | .error e₁, .error e₂ => e₁.ctorIdx = e₂.ctorIdx
  | _, _ => False

/-- The parser gives the same kind of result for what the server waits for and for anything that
one read may bring beyond it; or the stream ends before. -/
def Settled (http : Http.Parser) (bs : List UInt8) : Prop :=
  bs.length < headEnd bs ∨ ∀ n, headEnd bs ≤ n → n ≤ bs.length → n < headEnd bs + blockSize →
    parseKind (http.request (bs.take n)) = parseKind (http.request (bs.take (headEnd bs)))

/-- The error is one that is found in a head that was parsed. -/
def Error.ofHead : Error → Bool
  | .http _ | .incompleteHttpRequest => false
  | _ => true

/-- All errors are of that kind. -/
def OfHead {α : Type} (r : Except Error α) : Prop := ∀ e, r = .error e → e.ofHead = true

theorem coversHeaders_ofHead : CoversHeaders fun e => e.ofHead = true :=
  ⟨fun _ => rfl, fun _ => rfl, fun _ => rfl, fun _ => rfl⟩

section Extensions

variable {E : Type} [Extension E]

theorem ofHead_checkRequest (s : Server E) (request : Http.Request) :
    OfHead (s.checkRequest request).1 := by
  have hp := coversHeaders_ofHead
  change FailsWith (fun e => e.ofHead = true) _
  unfold Server.checkRequest
  dsimp only
  split
  · next e heq =>
    refine FailsWith.pass ?_ heq
    split_ifs
    · exact failsWith_error rfl
    · exact failsWith_error rfl
    · exact failsWith_error rfl
    · refine (failsWith_withFirstHeader hp failsWith_ok).bind fun host => ?_
      refine (failsWith_expectAsciiHeader hp _ _ _).bind fun _ => ?_
      refine (failsWith_expectAsciiHeader hp _ _ _).bind fun _ => ?_
      refine (failsWith_expectAsciiHeader hp _ _ _).bind fun _ => ?_
      refine (failsWith_withFirstHeader hp fun k => ?_).bind fun key => failsWith_ok _
      split
      · exact failsWith_ok _
      · exact failsWith_error rfl
  · have hext := failsWith_configureHeaders hp s.extensions request.headers
    split
    · next heq => exact hext.pass (congrArg Prod.fst heq)
    · exact failsWith_ok _

/-! ## When the outcome does not depend on the chunks -/

variable {http : Http.Parser} {s : Server E} {bs : List UInt8}

theorem outcomeAt_complete {n : ℕ} {request : Http.Request} {offset : ℕ}
    (h : http.request (bs.take n) = .ok (.complete request offset)) :
    outcomeAt http s bs n = ({ s with buffer := bs.take n }.checkRequest request).1 := by
  rw [outcomeAt, Server.decodeRequest, h]

theorem outcomeAt_needMore {n : ℕ} (h : http.request (bs.take n) = .ok .needMore) :
    outcomeAt http s bs n = .error .incompleteHttpRequest := by
  rw [outcomeAt, Server.decodeRequest, h]

theorem outcomeAt_failed {n : ℕ} {e : BoxedError} (h : http.request (bs.take n) = .error e) :
    outcomeAt http s bs n = .error (.http e) := by
  rw [outcomeAt, Server.decodeRequest, h]

theorem SameOutcome.refl (o : Except Error ClientRequest) : SameOutcome o o := by
  cases o <;> rfl

theorem SameOutcome.symm {o₁ o₂ : Except Error ClientRequest} (h : SameOutcome o₁ o₂) :
    SameOutcome o₂ o₁ := by
  cases o₁ <;> cases o₂
  · exact Eq.symm h
  · exact h.elim
  · exact h.elim
  · exact Eq.symm h

/-- The kind of the result of parsing that an outcome tells. -/
def outcomeKind : Except Error ClientRequest → ParseKind
  | .ok _ => .complete
  | .error e =>
    if e.ctorIdx = (Error.http ⟨""⟩).ctorIdx then .failed
    else if e.ctorIdx = Error.incompleteHttpRequest.ctorIdx then .needMore
    else .complete

theorem outcomeKind_of_ofHead {o : Except Error ClientRequest} (h : OfHead o) :
    outcomeKind o = .complete := by
  cases o with
  | ok r => rfl
  | error e =>
    have he := h e rfl
    cases e <;> first | rfl | cases he

theorem outcomeKind_outcomeAt (http : Http.Parser) (s : Server E) (bs : List UInt8) (n : ℕ) :
    outcomeKind (outcomeAt http s bs n) = parseKind (http.request (bs.take n)) := by
  rcases h : http.request (bs.take n) with e | _ | ⟨request, offset⟩
  · rw [outcomeAt_failed h]
    rfl
  · rw [outcomeAt_needMore h]
    rfl
  · rw [outcomeAt_complete h, outcomeKind_of_ofHead (ofHead_checkRequest _ _)]
    rfl

theorem SameOutcome.outcomeKind_eq {o₁ o₂ : Except Error ClientRequest} (h : SameOutcome o₁ o₂) :
    outcomeKind o₁ = outcomeKind o₂ := by
  cases o₁ with
  | ok r₁ =>
    cases o₂ with
    | ok r₂ => rfl
    | error e₂ => exact h.elim
  | error e₁ =>
    cases o₂ with
    | ok r₂ => exact h.elim
    | error e₂ =>
      have hidx : e₁.ctorIdx = e₂.ctorIdx := h
      rw [outcomeKind, outcomeKind, hidx]

theorem same_of_parseKind_eq (hstable : StableRequests http) {n m : ℕ} (hle : n ≤ m)
    (h : parseKind (http.request (bs.take m)) = parseKind (http.request (bs.take n))) :
    SameOutcome (outcomeAt http s bs n) (outcomeAt http s bs m) := by
  have htake : bs.take m = bs.take n ++ (bs.drop n).take (m - n) := by
    rw [← List.take_add, Nat.add_sub_cancel' hle]
  rcases hn : http.request (bs.take n) with e | _ | ⟨request, offset⟩
  · rw [hn] at h
    rcases hm : http.request (bs.take m) with e' | _ | ⟨request, offset⟩
    · rw [outcomeAt_failed hn, outcomeAt_failed hm]
      rfl
    · rw [hm] at h
      cases h
    · rw [hm] at h
      cases h
  · rw [hn] at h
    rcases hm : http.request (bs.take m) with e' | _ | ⟨request, offset⟩
    · rw [hm] at h
      cases h
    · rw [outcomeAt_needMore hn, outcomeAt_needMore hm]
      rfl
    · rw [hm] at h
      cases h
  · have hm : http.request (bs.take m) = .ok (.complete request offset) := by
      rw [htake]
      exact hstable.append hn _
    have heq : outcomeAt http s bs n = outcomeAt http s bs m := by
      rw [outcomeAt_complete hn, outcomeAt_complete hm]
      refine checkRequest_congr ?_ ?_ request <;> rfl
    rw [heq]
    exact SameOutcome.refl _

/-- A head that ends after byte 8192 is not read from what the server waits for. -/
theorem parseKind_headEnd_ne (hstable : StableRequests http) {request : Http.Request} {offset : ℕ}
    (h : http.request bs = .ok (.complete request offset)) (ho : maxHeadersSize < offset) :
    parseKind (http.request (bs.take (headEnd bs))) ≠ .complete := by
  intro hkind
  rcases hn : http.request (bs.take (headEnd bs)) with e | _ | ⟨request', offset'⟩
  · rw [hn] at hkind
    cases hkind
  · rw [hn] at hkind
    cases hkind
  · have hle := hstable.offset_le hn
    have hall := hstable.append hn (bs.drop (headEnd bs))
    rw [List.take_append_drop, h] at hall
    cases hall
    have hmax := headEnd_le bs
    rw [List.length_take] at hle
    omega

/-- **The outcome does not depend on the chunks**, and a head that ends after byte 8192 is always
refused, if and only if the parser gives the same kind of result for what the server waits for and
for what one read may bring beyond it. -/
theorem independent_iff (hstable : StableRequests http) :
    ((∀ r₁ r₂, Clean r₁ → Clean r₂ → bytes r₁ = bs → bytes r₂ = bs →
        ∃ o₁ o₂, outcome http s r₁ = some o₁ ∧ outcome http s r₂ = some o₂ ∧ SameOutcome o₁ o₂) ∧
      (∀ request offset, http.request bs = .ok (.complete request offset) →
        maxHeadersSize < offset → ∀ r, Clean r → bytes r = bs →
          ∃ e, outcome http s r = some (.error e))) ↔
    Settled http bs := by
  constructor
  · rintro ⟨hsame, -⟩
    by_cases hshort : bs.length < headEnd bs
    · exact Or.inl hshort
    right
    intro n hle hn hlt
    have hpos : headEnd bs < headEnd bs + blockSize := Nat.lt_add_of_pos_right (by decide)
    obtain ⟨o₁, o₂, h₁, h₂, h⟩ := hsame (chunksFor bs n) (chunksFor bs (headEnd bs))
      (clean_chunksFor bs n) (clean_chunksFor bs _) (bytes_chunksFor hle)
      (bytes_chunksFor (le_refl _))
    rw [outcome_chunksFor hle hn hlt] at h₁
    rw [outcome_chunksFor (le_refl _) (Nat.not_lt.mp hshort) hpos] at h₂
    cases h₁
    cases h₂
    rw [← outcomeKind_outcomeAt http s, ← outcomeKind_outcomeAt http s]
    exact h.outcomeKind_eq
  · intro hsettled
    have hto : ∀ r, Clean r → bytes r = bs →
        (bs.length < headEnd bs ∧ outcome http s r = some (.error (.io .unexpectedEof))) ∨
        ∃ n, headEnd bs ≤ n ∧ n ≤ bs.length ∧ outcome http s r = some (outcomeAt http s bs n) ∧
          parseKind (http.request (bs.take n)) = parseKind (http.request (bs.take (headEnd bs))) := by
      intro r hc hb
      rcases outcome_cases (s := s) hc hb with hshort | ⟨n, hle, hn, hlt, ho⟩
      · exact Or.inl hshort
      · rcases hsettled with hshort | hkind
        · omega
        · exact Or.inr ⟨n, hle, hn, ho, hkind n hle hn hlt⟩
    constructor
    · intro r₁ r₂ hc₁ hc₂ hb₁ hb₂
      rcases hto r₁ hc₁ hb₁ with ⟨hlt, ho₁⟩ | ⟨n₁, hle₁, hn₁, ho₁, hk₁⟩
      · rcases hto r₂ hc₂ hb₂ with ⟨-, ho₂⟩ | ⟨n₂, hle₂, hn₂, -, -⟩
        · exact ⟨_, _, ho₁, ho₂, SameOutcome.refl _⟩
        · omega
      · rcases hto r₂ hc₂ hb₂ with ⟨hlt, -⟩ | ⟨n₂, hle₂, hn₂, ho₂, hk₂⟩
        · omega
        · refine ⟨_, _, ho₁, ho₂, ?_⟩
          rcases Nat.le_total n₁ n₂ with hle | hle
          · exact same_of_parseKind_eq hstable hle (hk₂.trans hk₁.symm)
          · exact (same_of_parseKind_eq hstable hle (hk₁.trans hk₂.symm)).symm
    · intro request offset hrequest hoffset r hc hb
      rcases hto r hc hb with ⟨-, ho⟩ | ⟨n, -, -, ho, hk⟩
      · exact ⟨_, ho⟩
      · cases hout : outcomeAt http s bs n with
        | error e => exact ⟨e, hout ▸ ho⟩
        | ok r' =>
          have hkind := outcomeKind_outcomeAt http s bs n
          rw [hout, hk] at hkind
          exact absurd hkind.symm (parseKind_headEnd_ne hstable hrequest hoffset)

end Extensions

theorem stableRequests_lineParser : StableRequests lineParser :=
  ⟨fun h more => parseHead_append h more, fun h => parseHead_offset_le h⟩

/-- A server without protocols and extensions. -/
def plainServer : Server Empty := .new ⟨[], [], []⟩

/-- A request and some bytes after it. -/
def shortStream : List UInt8 := utf8 "GET / HTTP/1.1\r\nHost: example.com\r\n\r\nabc"

theorem settled_shortStream : Settled lineParser shortStream := by
  have hkind : ∀ n ≤ shortStream.length, headEnd shortStream ≤ n →
      parseKind (lineParser.request (shortStream.take n)) =
        parseKind (lineParser.request (shortStream.take (headEnd shortStream))) := by decide
  exact Or.inr fun n hle hn _ => hkind n hn hle

/-- The outcome for a request without empty lines before it does not depend on the chunks. -/
theorem independent_shortStream :
    (StableRequests lineParser ∧ Settled lineParser shortStream) ∧
    ∀ r₁ r₂, Clean r₁ → Clean r₂ → bytes r₁ = shortStream → bytes r₂ = shortStream →
      ∃ o₁ o₂, outcome lineParser plainServer r₁ = some o₁ ∧
        outcome lineParser plainServer r₂ = some o₂ ∧ SameOutcome o₁ o₂ :=
  ⟨⟨stableRequests_lineParser, settled_shortStream⟩,
    ((independent_iff stableRequests_lineParser).mpr settled_shortStream).1⟩

/-- A request after two empty lines. -/
def lateRequest : List UInt8 :=
  utf8 "GET / HTTP/1.1\r\nHost: example.com\r\nUpgrade: websocket\r\nConnection: Upgrade\r\nSec-WebSocket-Key: AAAAAAAAAAAAAAAAAAAAAA==\r\nSec-WebSocket-Version: 13\r\n\r\n"

/-- The server stops at two empty lines that come first in a chunk of their own, and reads on when
the request is in the same chunk. -/
theorem not_independent :
    ¬ ∀ (http : Http.Parser) (s : Server Empty) (bs : List UInt8), StableRequests http →
      ∀ r₁ r₂, Clean r₁ → Clean r₂ → bytes r₁ = bs → bytes r₂ = bs →
        ∃ o₁ o₂, outcome http s r₁ = some o₁ ∧ outcome http s r₂ = some o₂ ∧ SameOutcome o₁ o₂ := by
  intro h
  obtain ⟨o₁, o₂, h₁, h₂, hsame⟩ := h lineParser plainServer (headersTail ++ lateRequest)
    stableRequests_lineParser [.data headersTail, .data lateRequest]
    [.data (headersTail ++ lateRequest)] (by simp [Clean]) (by simp [Clean]) (by simp) (by simp)
  have hstop : outcome lineParser plainServer [.data headersTail, .data lateRequest] =
      some (.error .incompleteHttpRequest) := by decide +kernel
  have hread : (outcome lineParser plainServer [.data (headersTail ++ lateRequest)]).map
      Except.isOk = some true := by decide +kernel
  rw [hstop] at h₁
  cases h₁
  rw [h₂] at hread
  cases o₂ with
  | error e => cases hread
  | ok r => exact hsame

end Soketto.Handshake
