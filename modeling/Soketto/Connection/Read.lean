import Soketto.Base.Codec
import Soketto.Connection.Receive

/-!
# Reading from buffer and socket

A receiver reads one stream: its buffer, then what the reader delivers. When no read fails, the
functions that read depend on the stream alone, and their effect is a move along it.

* **`read_eq_ok`**, `read_eq_error`: how a read ends.
* `Receiver.stream`, `Receiver.config`: what is to come, and what never changes.
* `At r r' pos`: `r'` is the receiver `r` after `pos` bytes of the stream. No byte beyond
  `pos` was taken from the reader, unless the buffer of `r` held it.
* **`receiveHeader_spec`**, **`readBuffer_of_le`**, **`readPayload_of_le`**, …: what is read, and
  where it leads.
-/

set_option autoImplicit false

namespace Soketto

open Incremental Chunked

/-- What a receiver was configured with. -/
structure Config where
  mode : Mode
  maxDataSize : UInt64
  reservedBits : UInt8
  hasExtensions : Bool
  maxMessageSize : UInt64
  deriving DecidableEq

/-- The codec of the configuration. -/
def Config.codec (c : Config) : Codec := ⟨c.maxDataSize, c.reservedBits, .zero⟩

/-- A read obtains bytes, or it fails. -/
theorem read_eq_ok {reader reader' : Source UInt8} {dest dest' : List UInt8} {n : ℕ} :
    Soketto.read reader dest n = (.ok (), reader', dest') ↔
      ∃ got, got ≠ [] ∧ Chunked.read n reader = (.ok got, reader') ∧ dest' = dest ++ got := by
  rw [Soketto.read]
  rcases Chunked.read n reader with ⟨e | got, reader₁⟩
  · simp
  · by_cases hgot : got = []
    · simp [hgot]
    · have hlen : got.length ≠ 0 := fun h => hgot (List.length_eq_zero_iff.mp h)
      dsimp only
      rw [if_neg hlen]
      constructor
      · intro h
        cases h
        exact ⟨got, hgot, rfl, rfl⟩
      · rintro ⟨got', -, h, rfl⟩
        cases h
        rfl

/-- A read that fails leaves the zeros behind it, and one at the end of the source does not. -/
theorem read_eq_error {reader reader' : Source UInt8} {dest dest' : List UInt8} {n : ℕ} {e : IoError} :
    Soketto.read reader dest n = (.error e, reader', dest') ↔
      (Chunked.read n reader = (.error e, reader') ∧ dest' = dest ++ List.replicate n 0) ∨
      (Chunked.read n reader = (.ok [], reader') ∧ e = .unexpectedEof ∧ dest' = dest) := by
  rw [Soketto.read]
  rcases Chunked.read n reader with ⟨e₁ | got, reader₁⟩
  · simp [eq_comm, and_assoc]
  · by_cases hgot : got = []
    · subst hgot
      simp [eq_comm, and_left_comm]
    · simp [hgot]

theorem read_progress {reader reader' : Source UInt8} {dest dest' : List UInt8} {n : ℕ}
    (h : Soketto.read reader dest n = (.ok (), reader', dest')) :
    dest.length < dest'.length ∧ dest'.length ≤ dest.length + n ∧
      dest'.length + (bytes reader').length = dest.length + (bytes reader).length := by
  obtain ⟨got, hgot, hread, rfl⟩ := read_eq_ok.mp h
  obtain ⟨hbytes, hlen, -⟩ := read_ok hread
  have hpos : 0 < got.length := List.length_pos_iff.mpr hgot
  simp only [hbytes, List.length_append]
  omega

namespace Receiver

/-- All bytes to come. -/
def stream (self : Receiver) : List UInt8 := self.buffer ++ bytes self.reader

/-- The configuration of a receiver. -/
def config (self : Receiver) : Config where
  mode := self.mode
  maxDataSize := self.codec.maxDataSize
  reservedBits := self.codec.reservedBits
  hasExtensions := self.hasExtensions
  maxMessageSize := self.maxMessageSize

theorem config_encodeHeader (r : Receiver) (h : Header) (ctrl : List UInt8) :
    ({ r with codec := (r.codec.encodeHeader h).2, ctrlBuffer := ctrl } : Receiver).config =
      r.config := by
  obtain ⟨h₁, h₂⟩ := Codec.encodeHeader_snd r.codec h
  simp only [Receiver.config, h₁, h₂]

theorem length_stream (self : Receiver) : self.stream.length = self.remaining :=
  List.length_append

theorem take_stream (self : Receiver) {n : ℕ} (h : self.buffer.length ≤ n) :
    self.stream.take n = self.buffer ++ (bytes self.reader).take (n - self.buffer.length) := by
  rw [stream, List.take_append, List.take_of_length_le h]

theorem drop_stream (self : Receiver) {n : ℕ} (h : self.buffer.length ≤ n) :
    self.stream.drop n = (bytes self.reader).drop (n - self.buffer.length) := by
  rw [stream, List.drop_append, List.drop_of_length_le h, List.nil_append]

/-- The receiver `r'` is `r` moved along by `pos` bytes. -/
structure At (r r' : Receiver) (pos : ℕ) : Prop where
  config : r'.config = r.config
  isClosed : r'.isClosed = r.isClosed
  buffer : r'.buffer = r.buffer.drop pos
  reader : bytes r'.reader = (bytes r.reader).drop (pos - r.buffer.length)
  clean : Clean r'.reader

theorem At.refl {r : Receiver} (h : Clean r.reader) : At r r 0 :=
  ⟨rfl, rfl, rfl, by rw [Nat.zero_sub, List.drop_zero], h⟩

theorem At.trans {r₁ r₂ r₃ : Receiver} {p q : ℕ} (h₁ : At r₁ r₂ p) (h₂ : At r₂ r₃ q) :
    At r₁ r₃ (p + q) where
  config := h₂.config.trans h₁.config
  isClosed := h₂.isClosed.trans h₁.isClosed
  buffer := by rw [h₂.buffer, h₁.buffer, List.drop_drop]
  reader := by
    rw [h₂.reader, h₁.reader, h₁.buffer, List.drop_drop, List.length_drop]
    congr 1
    omega
  clean := h₂.clean

theorem At.stream {r self : Receiver} {pos : ℕ} (h : At r self pos) :
    self.stream = r.stream.drop pos := by
  rw [Receiver.stream, Receiver.stream, h.buffer, h.reader, List.drop_append]

theorem At.of_reader {r self : Receiver} {pos : ℕ} (hc : self.config = r.config)
    (hi : self.isClosed = r.isClosed) (hb : self.buffer = [])
    (hp : r.buffer.length ≤ pos) (hr : bytes self.reader = r.stream.drop pos)
    (hclean : Clean self.reader) : At r self pos where
  config := hc
  isClosed := hi
  buffer := by rw [hb, List.drop_of_length_le hp]
  reader := by rw [hr, drop_stream r hp]
  clean := hclean

/-! ## Headers -/

theorem read_spec {reader : Source UInt8} (hc : Clean reader) (dest : List UInt8) {n : ℕ}
    (hn : 0 < n) :
    (bytes reader = [] ∧ ∃ reader', Soketto.read reader dest n = (.error .unexpectedEof, reader', dest)) ∨
      ∃ got reader', got ≠ [] ∧ got.length ≤ n ∧ bytes reader = got ++ bytes reader' ∧
        Clean reader' ∧ Soketto.read reader dest n = (.ok (), reader', dest ++ got) := by
  obtain ⟨got, reader', hr, hc'⟩ := hc.read (n := n)
  obtain ⟨hb, hlen, hnil⟩ := read_ok hr
  by_cases hg : got = []
  · subst hg
    exact Or.inl ⟨hnil hn rfl, reader', read_eq_error.mpr (.inr ⟨hr, rfl, rfl⟩)⟩
  · exact Or.inr ⟨got, reader', hg, hlen, hb, hc', read_eq_ok.mpr ⟨got, hg, hr, rfl⟩⟩

theorem receiveHeaderLoop_isSome (fuel : ℕ) {r : Receiver} (hf : (bytes r.reader).length < fuel) :
    ∃ out, receiveHeaderLoop fuel r = some out := by
  induction fuel generalizing r with
  | zero => omega
  | succ fuel ih =>
    rw [receiveHeaderLoop]
    rcases r.codec.decodeHeader.run r.buffer with e | ⟨header, off⟩ | n
    · exact ⟨_, rfl⟩
    · exact ⟨_, rfl⟩
    · dsimp only
      rcases hread : Soketto.read r.reader r.buffer n with ⟨e | u, reader, buffer⟩
      · exact ⟨_, rfl⟩
      · have hprogress := read_progress hread
        exact ih (by dsimp only; omega)

/-- What `receiveHeader` does with a stream. -/
structure HeaderSpec (r : Receiver) (out : Option (Except Error Header × Receiver)) : Prop where
  error : ∀ {e}, r.config.codec.decodeHeader.run r.stream = .error e →
    ∃ r', out = some (.error (.codec e), r')
  needMore : ∀ {n}, r.config.codec.decodeHeader.run r.stream = .ok (.needMore n) →
    ∃ r', out = some (.error .closed, r')
  done : ∀ {header off}, r.config.codec.decodeHeader.run r.stream = .ok (.done header off) →
    ∃ r', out = some (.ok header, r') ∧ At r r' off

theorem HeaderSpec.of_read {self : Receiver} {out : Option (Except Error Header × Receiver)} {n : ℕ}
    {got : List UInt8} {reader' : Source UInt8}
    (hn : self.codec.decodeHeader.run self.buffer = .ok (.needMore n)) (hlen : got.length ≤ n)
    (hb : bytes self.reader = got ++ bytes reader')
    (h : HeaderSpec { self with reader := reader', buffer := self.buffer ++ got } out) :
    HeaderSpec self out := by
  have hs : ({ self with reader := reader', buffer := self.buffer ++ got } : Receiver).stream =
      self.stream := by
    simp only [stream, hb, List.append_assoc]
  have hlen' : (self.buffer ++ got).length = self.buffer.length + got.length := List.length_append
  refine ⟨fun hd => h.error (hs ▸ hd), fun hd => h.needMore (hs ▸ hd), fun {header off} hd => ?_⟩
  obtain ⟨r', hout, hat⟩ := h.done (hs ▸ hd)
  -- the header ends beyond the bytes asked for, so nothing is left in the buffer
  have hoff : self.buffer.length + n ≤ off :=
    (Codec.exact_decodeHeader _).le_of_needMore hn hd
  have hnil : r'.buffer = [] := by
    rw [hat.buffer]
    exact List.drop_of_length_le (by dsimp only; omega)
  refine ⟨r', hout, At.of_reader hat.config hat.isClosed hnil (by omega) ?_ hat.clean⟩
  rw [← hs, ← hat.stream, stream, hnil, List.nil_append]

theorem receiveHeaderLoop_spec (fuel : ℕ) {self : Receiver} (hc : Clean self.reader)
    (hf : (bytes self.reader).length < fuel) : HeaderSpec self (receiveHeaderLoop fuel self) := by
  induction fuel generalizing self with
  | zero => exact absurd hf (Nat.not_lt_zero _)
  | succ fuel ih =>
    have hx := Codec.exact_decodeHeader self.codec
    rw [receiveHeaderLoop]
    rcases hd : self.codec.decodeHeader.run self.buffer with e | ⟨header, off⟩ | n
    · have hs : self.config.codec.decodeHeader.run self.stream = .error e := hx.error hd _
      exact ⟨fun h => by cases hs.symm.trans h; exact ⟨_, rfl⟩,
        fun h => (by cases hs.symm.trans h), fun h => (by cases hs.symm.trans h)⟩
    · have hs : self.config.codec.decodeHeader.run self.stream = .ok (.done header off) :=
        hx.done_append hd _
      refine ⟨fun h => (by cases hs.symm.trans h), fun h => (by cases hs.symm.trans h), fun h => ?_⟩
      cases hs.symm.trans h
      refine ⟨_, rfl, rfl, rfl, rfl, ?_, hc⟩
      rw [Nat.sub_eq_zero_of_le (hx.le hd), List.drop_zero]
    · dsimp only
      rcases read_spec hc self.buffer (hx.pos hd) with
        ⟨hnil, reader', hr⟩ | ⟨got, reader', hne, hlen, hb, hc', hr⟩
      · have hs : self.config.codec.decodeHeader.run self.stream = .ok (.needMore n) := by
          rw [stream, hnil, List.append_nil]
          exact hd
        rw [hr]
        exact ⟨fun h => (by cases hs.symm.trans h), fun _ => ⟨_, rfl⟩,
          fun h => (by cases hs.symm.trans h)⟩
      · rw [hr]
        refine HeaderSpec.of_read hd hlen hb (ih hc' ?_)
        rw [hb, List.length_append] at hf
        have : 0 < got.length := List.length_pos_iff.mpr hne
        dsimp only
        omega

theorem receiveHeader_spec {self : Receiver} (hc : Clean self.reader) :
    HeaderSpec self self.receiveHeader := receiveHeaderLoop_spec _ hc (Nat.lt_succ_self _)

/-! ## Payloads -/

theorem readExactInto_of_le {reader : Source UInt8} (hc : Clean reader) (dest : List UInt8) {n : ℕ}
    (hn : n ≤ (bytes reader).length) :
    ∃ reader', readExactInto reader dest n = (none, reader', dest ++ (bytes reader).take n) ∧
      bytes reader' = (bytes reader).drop n ∧ Clean reader' := by
  obtain ⟨reader', h₁, h₂, h₃⟩ := readExact_of_le hc hn
  refine ⟨reader', ?_, h₂, h₃⟩
  rw [readExactInto, h₁]
  dsimp only
  rw [List.length_take, Nat.min_eq_left hn, Nat.sub_self, List.replicate_zero, List.append_nil]

theorem readExactInto_of_lt {reader : Source UInt8} (hc : Clean reader) (dest : List UInt8) {n : ℕ}
    (hn : (bytes reader).length < n) :
    ∃ reader', readExactInto reader dest n = (some .unexpectedEof, reader',
      dest ++ bytes reader ++ List.replicate (n - (bytes reader).length) 0) := by
  obtain ⟨reader', h₁, -, -⟩ := readExact_of_lt hc hn
  exact ⟨reader', by rw [readExactInto, h₁]⟩

/-- The payload of a control frame is brought to the front of the buffer. -/
theorem readBuffer_of_le {self : Receiver} (hc : Clean self.reader) (header : Header)
    (hn : header.payloadLen ≤ self.stream.length) :
    ∃ self', self.readBuffer header = (.ok (), self') ∧
      self'.buffer.take header.payloadLen = self.stream.take header.payloadLen ∧
      At self { self' with buffer := self'.buffer.drop header.payloadLen } header.payloadLen := by
  unfold readBuffer
  by_cases hle : header.payloadLen ≤ self.buffer.length
  · rw [if_pos hle]
    refine ⟨self, rfl, ?_, rfl, rfl, rfl, ?_, hc⟩
    · rw [stream, List.take_append_of_le_length hle]
    · rw [Nat.sub_eq_zero_of_le hle, List.drop_zero]
  · rw [if_neg hle]
    have hlen : self.stream.length = self.buffer.length + (bytes self.reader).length :=
      List.length_append
    obtain ⟨reader', h₁, h₂, h₃⟩ := readExactInto_of_le (n := header.payloadLen - self.buffer.length)
      hc self.buffer (by omega)
    have htake := self.take_stream (n := header.payloadLen) (by omega)
    have hdrop := self.drop_stream (n := header.payloadLen) (by omega)
    refine ⟨{ self with
      reader := reader'
      buffer := self.buffer ++ (bytes self.reader).take (header.payloadLen - self.buffer.length) },
      by rw [h₁], ?_, At.of_reader rfl rfl ?_ (by omega) ?_ h₃⟩
    · dsimp only
      rw [← htake, List.take_take, Nat.min_self]
    · refine List.drop_of_length_le ?_
      dsimp only
      rw [List.length_append, List.length_take]
      omega
    · exact h₂.trans hdrop.symm

theorem readBuffer_of_lt {self : Receiver} (hc : Clean self.reader) (header : Header)
    (hn : self.stream.length < header.payloadLen) :
    ∃ self', self.readBuffer header = (.error .closed, self') := by
  have hlen : self.stream.length = self.buffer.length + (bytes self.reader).length :=
    List.length_append
  obtain ⟨reader', h⟩ := readExactInto_of_lt (n := header.payloadLen - self.buffer.length)
    hc self.buffer (by omega)
  exact ⟨_, by rw [readBuffer, if_neg (by omega), h]; rfl⟩

theorem takeBuffered_of_lt {self : Receiver} {n : ℕ} (h : self.buffer.length < n)
    (message : List UInt8) :
    self.takeBuffered n message =
      (n - self.buffer.length, { self with buffer := [] }, message ++ self.buffer) := by
  unfold takeBuffered
  by_cases hb : self.buffer.length = 0
  · obtain ⟨mode, codec, reader, hasExtensions, buffer, ctrlBuffer, max, isClosed⟩ := self
    obtain rfl : buffer = [] := List.length_eq_zero_iff.mp hb
    simp
  · rw [if_neg hb, if_pos h]

/-- The payload of a data frame is unmasked at the end of `message`. -/
theorem readPayload_of_le {self : Receiver} (hc : Clean self.reader) (header : Header)
    (message : List UInt8) (hn : header.payloadLen ≤ self.stream.length) :
    ∃ self', self.readPayload header message =
        (.ok (), self', message ++ applyMask header (self.stream.take header.payloadLen)) ∧
      At self self' header.payloadLen := by
  have hlen : self.stream.length = self.buffer.length + (bytes self.reader).length :=
    List.length_append
  have hmask : ∀ payload : List UInt8, (message ++ payload).take message.length ++
      applyMask header ((message ++ payload).drop message.length) =
        message ++ applyMask header payload := fun payload => by
    rw [List.take_left, List.drop_left]
  -- the payload is in the buffer
  by_cases hle : header.payloadLen ≤ self.buffer.length
  · have ht : self.stream.take header.payloadLen = self.buffer.take header.payloadLen := by
      rw [stream, List.take_append_of_le_length hle]
    have hself : At self { self with buffer := self.buffer.drop header.payloadLen }
        header.payloadLen :=
      ⟨rfl, rfl, rfl, by rw [Nat.sub_eq_zero_of_le hle, List.drop_zero], hc⟩
    unfold readPayload takeBuffered
    by_cases hb : self.buffer.length = 0
    · have hnil : self.buffer = [] := List.length_eq_zero_iff.mp hb
      have hp : header.payloadLen = 0 := by omega
      rw [if_pos hb]
      dsimp only
      rw [if_pos hp, ht, hnil, List.take_nil, List.take_length, List.drop_length]
      refine ⟨self, rfl, ?_⟩
      rw [hp]
      exact At.refl hc
    · rw [if_neg hb, if_neg (by omega)]
      dsimp only
      rw [if_pos rfl, hmask, ht]
      exact ⟨_, rfl, hself⟩
  -- part of it, or nothing, is in the buffer
  · obtain ⟨reader', h₁, h₂, h₃⟩ := readExactInto_of_le (n := header.payloadLen - self.buffer.length)
      hc (message ++ self.buffer) (by omega)
    have htake := self.take_stream (n := header.payloadLen) (by omega)
    have hdrop := self.drop_stream (n := header.payloadLen) (by omega)
    refine ⟨{ self with buffer := [], reader := reader' }, ?_, At.of_reader rfl rfl rfl (by omega) ?_ h₃⟩
    · unfold readPayload
      rw [takeBuffered_of_lt (by omega)]
      dsimp only
      rw [if_neg (by omega), h₁]
      dsimp only
      rw [List.append_assoc, ← htake, hmask]
    · exact h₂.trans hdrop.symm

/-- When the stream ends inside of the payload, `message` gets what there is, and zeros. -/
theorem readPayload_of_lt {self : Receiver} (hc : Clean self.reader) (header : Header)
    (message : List UInt8) (hn : self.stream.length < header.payloadLen) :
    ∃ self', self.readPayload header message =
        (.error .closed, self', message ++ self.stream ++
          List.replicate (header.payloadLen - self.stream.length) 0) := by
  have hlen : self.stream.length = self.buffer.length + (bytes self.reader).length :=
    List.length_append
  obtain ⟨reader', h₁⟩ := readExactInto_of_lt (n := header.payloadLen - self.buffer.length)
      hc (message ++ self.buffer) (by omega)
  refine ⟨{ self with buffer := [], reader := reader' }, ?_⟩
  unfold readPayload
  rw [takeBuffered_of_lt (by omega)]
  dsimp only
  rw [if_neg (by omega), h₁, hlen, Nat.sub_add_eq]
  simp only [stream, List.append_assoc]
  rfl

end Receiver

end Soketto
