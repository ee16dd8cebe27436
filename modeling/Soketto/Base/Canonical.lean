import Soketto.Base.Codec

/-!
# Headers and their bytes

Which bytes a header is decoded from, and which ones it is encoded to.

* `LengthForm`: a length code with its extended length; **`bytes_of_decodeHeader`**: the bytes of a
  header that was decoded.
* **`decode_encode`**: what is encoded is decoded again.
* **`decode_incremental`**: decoding from the bytes received so far.
* **`encode_decode_header`**: what is decoded is encoded to the same bytes just when they have the shortest
  form of the payload length.
* **`control_short_iff`**: control frames with a length in a longer form are rejected unless the
  length is one that the one-byte form has.
-/

set_option autoImplicit false

namespace Soketto

open Incremental BigEndian

namespace Codec

/-! ## What was decoded -/

/-- The length code and the extended length bytes denote the payload length. -/
inductive LengthForm : UInt8 → List UInt8 → ℕ → Prop
  | byte (code : UInt8) (h : code.toNat < 126) : LengthForm code [] code.toNat
  | two (ext : List UInt8) (h : ext.length = 2) : LengthForm twoExt ext (beNat ext)
  | eight (ext : List UInt8) (h : ext.length = 8) : LengthForm eightExt ext (beNat ext)

theorem take_beNat_eq_done {k : ℕ} {bs : List UInt8} {len off : ℕ}
    (h : (do return beNat (← Parser.take k) : Parser Base.Error UInt8 ℕ).run bs =
      .ok (.done len off)) : k ≤ bs.length ∧ len = beNat (bs.take k) ∧ off = k := by
  obtain ⟨xs, o, o', h₁, h₂, rfl⟩ := Parser.bind_eq_done h
  obtain ⟨hk, rfl, rfl⟩ := Parser.take_eq_done h₁
  obtain ⟨hlen, rfl⟩ := Parser.lift_eq_done h₂
  cases hlen
  exact ⟨hk, rfl, rfl⟩

theorem decodeLen_eq_done {code : UInt8} (hcode : code.toNat < 128) {bs : List UInt8} {len off : ℕ}
    (h : (decodeLen code).run bs = .ok (.done len off)) :
    LengthForm code (bs.take off) len ∧ off ≤ bs.length := by
  unfold decodeLen at h
  split_ifs at h with h₁ h₂
  · obtain ⟨hk, rfl, rfl⟩ := take_beNat_eq_done h
    rw [h₁]
    exact ⟨.two _ (by rw [List.length_take]; omega), hk⟩
  · obtain ⟨hk, rfl, rfl⟩ := take_beNat_eq_done h
    rw [h₂]
    exact ⟨.eight _ (by rw [List.length_take]; omega), hk⟩
  · obtain ⟨hlen, rfl⟩ := Parser.lift_eq_done h
    cases hlen
    have h126 : code.toNat ≠ 126 := fun h => h₁ (UInt8.toNat_inj.mp h)
    have h127 : code.toNat ≠ 127 := fun h => h₂ (UInt8.toNat_inj.mp h)
    exact ⟨.byte code (by omega), Nat.zero_le _⟩

theorem decodeMask_eq_done {masked : Bool} {bs : List UInt8} {mask : UInt32} {off : ℕ}
    (h : (decodeMask masked).run bs = .ok (.done mask off)) :
    bs.take off = if masked then beBytes 4 mask.toNat else [] := by
  unfold decodeMask at h
  split_ifs at h ⊢ with hm
  · obtain ⟨xs, o, o', h₁, h₂, rfl⟩ := Parser.bind_eq_done h
    obtain ⟨hk, rfl, rfl⟩ := Parser.take_eq_done h₁
    obtain ⟨hmask, rfl⟩ := Parser.lift_eq_done h₂
    cases hmask
    have hlen : (bs.take 4).length = 4 := by rw [List.length_take]; omega
    have hlt : beNat (bs.take 4) < 2 ^ 32 := by
      have := beNat_lt (bs.take 4)
      rwa [hlen] at this
    rw [UInt32.toNat_ofNat_of_lt' hlt, Nat.add_zero]
    calc bs.take 4 = beBytes (bs.take 4).length (beNat (bs.take 4)) := (beBytes_beNat _).symm
      _ = beBytes 4 (beNat (bs.take 4)) := by rw [hlen]
  · obtain ⟨-, rfl⟩ := Parser.lift_eq_done h
    rfl

theorem forall_byte {P : UInt8 → Prop} (h : ∀ hi lo : Fin 16, P (UInt8.ofNat (16 * hi + lo)))
    (b : UInt8) : P b := by
  have hb := b.toNat_lt
  have := h ⟨b.toNat / 16, by omega⟩ ⟨b.toNat % 16, by omega⟩
  rwa [Nat.div_add_mod, UInt8.ofNat_toNat] at this

theorem flagBits_bits (first : UInt8) : ∀ opcode ∈ OpCode.tryFrom (first &&& 0xF),
    flagBits (first &&& 0x80 != 0) (first &&& 0x40 != 0) (first &&& 0x20 != 0)
      (first &&& 0x10 != 0) opcode = first := by
  revert first
  exact forall_byte (by decide)

theorem secondByte_bits (second : UInt8) :
    (if second &&& 0x80 != 0 then 0x80 else 0) ||| (second &&& 0x7F) = second ∧
      (second &&& 0x7F).toNat < 128 := by
  revert second
  exact forall_byte (by decide)

theorem flagBits_of_decodeFlags {c : Codec} {first : UInt8} {h : Header}
    (hf : c.decodeFlags first = .ok h) :
    flagBits h.fin h.rsv1 h.rsv2 h.rsv3 h.opcode = first := by
  unfold decodeFlags at hf
  dsimp only at hf
  split at hf
  · cases hf
  · next opcode hoc =>
    split_ifs at hf
    cases hf
    exact flagBits_bits first _ hoc

theorem decodeHeader_cons (c : Codec) (first second : UInt8) (rest : List UInt8) :
    c.decodeHeader.run (first :: second :: rest) = Parser.shift 2 ((do
      let header ← Parser.lift (c.decodeFlags first)
      let len ← decodeLen (second &&& 0x7F)
      Parser.reject (decide (maxCtrlBodySize < len) && header.opcode.isControl)
        .invalidControlFrameLen
      Parser.reject (decide (c.maxDataSize.toNat < len)) (.payloadTooLarge len c.maxDataSize.toNat)
      let mask ← decodeMask (second &&& 0x80 != 0)
      return { header with masked := second &&& 0x80 != 0, mask, payloadLen := len } :
        Parser Base.Error UInt8 Header).run rest) :=
  Parser.run_take_bind (show [first, second].length = 2 from rfl) _ rest

theorem exists_cons_cons {b : List UInt8} (h : 2 ≤ b.length) :
    ∃ first second rest, b = first :: second :: rest := by
  match b, h with
  | first :: second :: rest, _ => exact ⟨first, second, rest, rfl⟩

theorem two_le_of_decodeHeader {c : Codec} {b : List UInt8} {h : Header} {off : ℕ}
    (hd : c.decodeHeader.run b = .ok (.done h off)) : ∃ first second rest,
      b = first :: second :: rest := by
  obtain ⟨two, o₁, r₁, h₁, -, -⟩ := Parser.bind_eq_done hd
  exact exists_cons_cons (Parser.take_eq_done h₁).1

theorem decodeHeader_eq_done {c : Codec} {first second : UInt8} {rest : List UInt8} {h : Header}
    {off : ℕ} (hd : c.decodeHeader.run (first :: second :: rest) = .ok (.done h off)) :
    ∃ flags len mask o₁ o₂, c.decodeFlags first = .ok flags ∧
      (decodeLen (second &&& 0x7F)).run rest = .ok (.done len o₁) ∧
      (decodeMask (second &&& 0x80 != 0)).run (rest.drop o₁) = .ok (.done mask o₂) ∧
      h = { flags with masked := second &&& 0x80 != 0, mask, payloadLen := len } ∧
      off = 2 + (o₁ + o₂) := by
  rw [decodeHeader_cons] at hd
  obtain ⟨off', d₁, rfl⟩ := Parser.shift_eq_done hd
  obtain ⟨flags, _, _, h₂, d₂, rfl⟩ := Parser.bind_eq_done d₁
  obtain ⟨len, o₁, _, h₃, d₃, rfl⟩ := Parser.bind_eq_done d₂
  obtain ⟨_, _, _, h₄, d₄, rfl⟩ := Parser.bind_eq_done d₃
  obtain ⟨_, _, _, h₅, d₅, rfl⟩ := Parser.bind_eq_done d₄
  obtain ⟨mask, o₂, _, h₆, d₆, rfl⟩ := Parser.bind_eq_done d₅
  obtain ⟨hflags, rfl⟩ := Parser.lift_eq_done h₂
  obtain ⟨-, rfl⟩ := Parser.reject_eq_done h₄
  obtain ⟨-, rfl⟩ := Parser.reject_eq_done h₅
  obtain ⟨hheader, rfl⟩ := Parser.lift_eq_done d₆
  cases hheader
  exact ⟨flags, len, mask, o₁, o₂, hflags, h₃, h₆, rfl, by omega⟩

/-- **The bytes of a header that was decoded**: only the form of the payload length is not told by
the header. -/
theorem bytes_of_decodeHeader {c : Codec} {b : List UInt8} {h : Header} {off : ℕ}
    (hd : c.decodeHeader.run b = .ok (.done h off)) :
    ∃ code ext, code.toNat < 128 ∧ LengthForm code ext h.payloadLen ∧
      b.take off = firstByte h :: (maskBit h ||| code) :: (ext ++ maskBytes h) ∧
      b.getD 1 0 &&& 0x7F = code := by
  obtain ⟨first, second, rest, rfl⟩ := two_le_of_decodeHeader hd
  obtain ⟨flags, len, mask, o₁, o₂, hflags, hlen, hmask, rfl, rfl⟩ := decodeHeader_eq_done hd
  obtain ⟨hsecond, hcode⟩ := secondByte_bits second
  obtain ⟨hform, -⟩ := decodeLen_eq_done hcode hlen
  have hfirst : firstByte flags = first := flagBits_of_decodeFlags hflags
  refine ⟨second &&& 0x7F, rest.take o₁, hcode, hform, ?_, rfl⟩
  have htake : (first :: second :: rest).take (2 + (o₁ + o₂)) =
      first :: second :: (rest.take o₁ ++ (rest.drop o₁).take o₂) := by
    rw [Nat.add_comm 2, List.take_succ_cons, List.take_succ_cons, List.take_add]
  rw [htake, decodeMask_eq_done hmask]
  change _ = firstByte flags ::
    ((if second &&& 0x80 != 0 then 0x80 else 0) ||| (second &&& 0x7F)) :: _
  rw [hfirst, hsecond]
  rfl

/-! ## Lengths -/

theorem bounded_decodeLen (code : UInt8) : Parser.Bounded (decodeLen code) 8 :=
  Parser.bounded_ite _
    (Parser.bounded_bind (j := 2) (k := 6) (Parser.bounded_take 2) fun _ => Parser.bounded_pure _ _)
    (Parser.bounded_ite _
      (Parser.bounded_bind (k := 0) (Parser.bounded_take 8) fun _ => Parser.bounded_pure _ _)
      (Parser.bounded_pure _ _))

theorem bounded_decodeMask (masked : Bool) : Parser.Bounded (decodeMask masked) 4 :=
  Parser.bounded_ite _
    (Parser.bounded_bind (k := 0) (Parser.bounded_take 4) fun _ => Parser.bounded_pure _ _)
    (Parser.bounded_pure _ _)

theorem bounded_decodeHeader (c : Codec) : Parser.Bounded c.decodeHeader maxHeaderSize := by
  unfold decodeHeader
  refine Parser.bounded_bind (j := 2) (k := 12) (Parser.bounded_take 2) fun two => ?_
  refine Parser.bounded_bind (j := 0) (k := 12) (Parser.bounded_lift _ _) fun header => ?_
  refine Parser.bounded_bind (j := 8) (k := 4) (bounded_decodeLen _) fun len => ?_
  refine Parser.bounded_bind (j := 0) (k := 4) (Parser.bounded_reject _ _ _) fun _ => ?_
  refine Parser.bounded_bind (j := 0) (k := 4) (Parser.bounded_reject _ _ _) fun _ => ?_
  exact Parser.bounded_bind (j := 4) (k := 0) (bounded_decodeMask _) fun mask =>
    Parser.bounded_pure _ _

theorem asksWithin_decodeLen (code : UInt8) : Parser.AsksWithin (decodeLen code) 8 :=
  Parser.asksWithin_ite _
    (Parser.asksWithin_bind (j := 2) (k := 6) (Parser.bounded_take 2) (Parser.asksWithin_take 2)
      fun _ => Parser.asksWithin_lift _ _)
    (Parser.asksWithin_ite _
      (Parser.asksWithin_bind (k := 0) (Parser.bounded_take 8) (Parser.asksWithin_take 8)
        fun _ => Parser.asksWithin_lift _ _)
      (Parser.asksWithin_lift _ _))

theorem asksWithin_decodeMask (masked : Bool) : Parser.AsksWithin (decodeMask masked) 4 :=
  Parser.asksWithin_ite _
    (Parser.asksWithin_bind (k := 0) (Parser.bounded_take 4) (Parser.asksWithin_take 4)
      fun _ => Parser.asksWithin_lift _ _)
    (Parser.asksWithin_lift _ _)

theorem asksWithin_decodeHeader (c : Codec) : Parser.AsksWithin c.decodeHeader maxHeaderSize := by
  unfold decodeHeader
  refine Parser.asksWithin_bind (j := 2) (k := 12) (Parser.bounded_take 2)
    (Parser.asksWithin_take 2) fun two => ?_
  refine Parser.asksWithin_bind (j := 0) (k := 12) (Parser.bounded_lift _ _)
    (Parser.asksWithin_lift _ _) fun header => ?_
  refine Parser.asksWithin_bind (j := 8) (k := 4) (bounded_decodeLen _)
    (asksWithin_decodeLen _) fun len => ?_
  refine Parser.asksWithin_bind (j := 0) (k := 4) (Parser.bounded_reject _ _ _)
    (Parser.asksWithin_lift _ _) fun _ => ?_
  refine Parser.asksWithin_bind (j := 0) (k := 4) (Parser.bounded_reject _ _ _)
    (Parser.asksWithin_lift _ _) fun _ => ?_
  exact Parser.asksWithin_bind (j := 4) (k := 0) (bounded_decodeMask _) (asksWithin_decodeMask _)
    fun mask => Parser.asksWithin_lift _ _

theorem length_lenBytes (b : UInt8) (len : ℕ) : (lenBytes b len).length =
    if len < 126 then 1 else if len ≤ 65535 then 3 else 9 := by
  have h126 : twoExt.toNat = 126 := rfl
  unfold lenBytes
  rw [h126]
  split_ifs
  · rfl
  · rw [List.length_cons, length_beBytes]
  · rw [List.length_cons, length_beBytes]

theorem length_maskBytes (h : Header) : (maskBytes h).length = if h.masked then 4 else 0 := by
  unfold maskBytes
  split_ifs
  · exact length_beBytes 4 _
  · rfl

theorem length_headerBytes_le (h : Header) : (headerBytes h).length ≤ maxHeaderSize := by
  rw [headerBytes, List.length_cons, List.length_append, length_lenBytes, length_maskBytes]
  split_ifs <;> decide

theorem encodeHeader_eq_take (c : Codec) (h : Header) :
    (c.encodeHeader h).1 =
      (c.encodeHeader h).2.headerBuffer.bytes.take (c.encodeHeader h).1.length := by
  have htake : ∀ (bs : List UInt8) (n : ℕ), bs.take n = bs.take (bs.take n).length := by
    intro bs n
    rw [List.take_eq_take_iff, List.length_take, Nat.min_assoc, Nat.min_self]
  unfold encodeHeader
  dsimp only
  split_ifs
  · exact htake _ _
  · exact htake _ _

/-! ## Encoding and decoding -/

/-- **What is encoded is decoded again**, whatever the scratch buffer held before and whatever
follows; and what is encoded is a beginning of the scratch buffer. -/
theorem decode_encode {c : Codec} {h : Header} (ha : c.Accepts h) (s : List UInt8) :
    c.decodeHeader.run ((c.encodeHeader h).1 ++ s) =
        .ok (.done h (c.encodeHeader h).1.length) ∧
      (c.encodeHeader h).2.decodeHeader.run ((c.encodeHeader h).1 ++ s) =
        .ok (.done h (c.encodeHeader h).1.length) ∧
      (c.encodeHeader h).1.length ≤ maxHeaderSize ∧
      (c.encodeHeader h).1 =
        (c.encodeHeader h).2.headerBuffer.bytes.take (c.encodeHeader h).1.length := by
  obtain ⟨hmax, hbits⟩ := encodeHeader_snd c h
  have ha' : (c.encodeHeader h).2.Accepts h := by
    refine ⟨ha.not_reserved, ha.fin, ha.control_len, ?_, ?_, ?_, ?_, ha.mask⟩
    · rw [hbits]
      exact ha.rsv1
    · rw [hbits]
      exact ha.rsv2
    · rw [hbits]
      exact ha.rsv3
    · rw [hmax]
      exact ha.len
  refine ⟨?_, ?_, ?_, encodeHeader_eq_take c h⟩
  · rw [encodeHeader_fst]
    exact decodeHeader_headerBytes ha s
  · rw [encodeHeader_fst]
    exact decodeHeader_headerBytes ha' s
  · rw [encodeHeader_fst]
    exact length_headerBytes_le h

/-- A masked text frame of 300 bytes is encoded to eight bytes. -/
theorem decode_encode_masked :
    Codec.new.decodeHeader.run
        ((Codec.new.encodeHeader { Header.new .text with
          masked := true, mask := 7, payloadLen := 300 }).1 ++ [1, 2]) =
      .ok (.done { Header.new .text with masked := true, mask := 7, payloadLen := 300 } 8) :=
  (decode_encode (c := Codec.new) (h := { Header.new .text with
    masked := true, mask := 7, payloadLen := 300 })
    ⟨rfl, by decide, by decide, by decide, by decide, by decide, by decide, by decide⟩ [1, 2]).1

/-- **Decoding from the bytes received so far**: a header that was decoded ends within them, and
neither more nor less bytes make another one of it; an error stays; and what is asked for is no more
than the header has. -/
theorem decode_incremental (c : Codec) (b : List UInt8) :
    (∀ h off, c.decodeHeader.run b = .ok (.done h off) →
      2 ≤ off ∧ off ≤ min b.length maxHeaderSize ∧
      (∀ s, c.decodeHeader.run (b ++ s) = .ok (.done h off)) ∧
      c.decodeHeader.run (b.take off) = .ok (.done h off) ∧
      ∀ pre, pre <+: b.take off → pre ≠ b.take off →
        ∀ h' off', c.decodeHeader.run pre ≠ .ok (.done h' off')) ∧
    (∀ e, c.decodeHeader.run b = .error e → ∀ s, c.decodeHeader.run (b ++ s) = .error e) ∧
    ∀ n, c.decodeHeader.run b = .ok (.needMore n) →
      1 ≤ n ∧
      (∀ s, s.length < n → c.decodeHeader.run (b ++ s) = .ok (.needMore (n - s.length))) ∧
      ∀ s h off, c.decodeHeader.run (b ++ s) = .ok (.done h off) → b.length + n ≤ off := by
  have hx := exact_decodeHeader c
  refine ⟨fun h off hd => ?_, fun e he s => hx.error he s, fun n hn => ?_⟩
  · have htake : c.decodeHeader.run (b.take off) = .ok (.done h off) := by
      have := hx.done hd []
      rwa [List.append_nil] at this
    refine ⟨(accepts_of_decodeHeader hd).2, le_min (hx.le hd) (bounded_decodeHeader c hd),
      hx.done_append hd, htake, fun pre hpre hne => ?_⟩
    refine hx.not_done_of_prefix htake hpre ?_
    have hlen : (b.take off).length = off := by
      have := hx.le hd
      rw [List.length_take]
      omega
    have hle := hpre.length_le
    have hlt : pre.length ≠ (b.take off).length := fun h => hne (hpre.eq_of_length h)
    omega
  · exact ⟨hx.pos hn, hx.needMore hn, fun s h off hd => hx.le_of_needMore hn hd⟩

/-! ## The shortest form -/

/-- The length code of the second byte. -/
def lengthCode (b : List UInt8) : UInt8 := b.getD 1 0 &&& 0x7F

/-- The header has the shortest of the three forms of the payload length: the two bytes are used
where one is not enough, and the eight bytes where two are not. -/
def Shortest (b : List UInt8) (len : ℕ) : Prop :=
  (lengthCode b = twoExt → 125 < len) ∧ (lengthCode b = eightExt → 65535 < len)

theorem lenBytes_of_lengthForm {code : UInt8} {ext : List UInt8} {len : ℕ}
    (hf : LengthForm code ext len) (second : UInt8) :
    (lenBytes second len).length ≤ 1 + ext.length ∧
      (lenBytes second len = (second ||| code) :: ext ↔
        (code = twoExt → 125 < len) ∧ (code = eightExt → 65535 < len)) := by
  have h126 : twoExt.toNat = 126 := rfl
  have hlen := length_lenBytes second len
  cases hf with
  | byte code hcode =>
    have hne : ∀ c : UInt8, 126 ≤ c.toNat → code ≠ c := by
      rintro c hc rfl
      omega
    rw [if_pos hcode] at hlen
    refine ⟨le_of_eq hlen, fun _ => ⟨fun h => absurd h (hne _ (by decide)),
      fun h => absurd h (hne _ (by decide))⟩, fun _ => ?_⟩
    rw [lenBytes, h126, if_pos hcode, UInt8.ofNat_toNat]
  | two ext hext =>
    have hlt := beNat_lt ext
    rw [hext] at hlt ⊢
    have hle : beNat ext ≤ 65535 := by omega
    rw [if_pos hle] at hlen
    refine ⟨by split_ifs at hlen <;> omega, fun h => ⟨fun _ => ?_, fun h => absurd h (by decide)⟩,
      fun h => ?_⟩
    · rw [h, List.length_cons, hext] at hlen
      split_ifs at hlen <;> omega
    · have hlong := h.1 rfl
      have hback : beBytes 2 (beNat ext) = ext := by
        rw [← hext]
        exact beBytes_beNat ext
      rw [lenBytes, h126, if_neg (by omega), if_pos hle, hback]
  | eight ext hext =>
    rw [hext]
    refine ⟨by split_ifs at hlen <;> omega, fun h => ⟨fun h => absurd h (by decide), fun _ => ?_⟩,
      fun h => ?_⟩
    · rw [h, List.length_cons, hext] at hlen
      split_ifs at hlen <;> omega
    · have hlong := h.2 rfl
      have hback : beBytes 8 (beNat ext) = ext := by
        rw [← hext]
        exact beBytes_beNat ext
      rw [lenBytes, h126, if_neg (by omega), if_neg (by omega), hback]

/-- **What is decoded is encoded** to no more bytes, which are decoded to the same header; and to the
same bytes just when they have the shortest form of the payload length. -/
theorem encode_decode_header {c : Codec} {b : List UInt8} {h : Header} {off : ℕ}
    (hd : c.decodeHeader.run b = .ok (.done h off)) :
    (c.encodeHeader h).1.length ≤ off ∧
      c.decodeHeader.run (c.encodeHeader h).1 = .ok (.done h (c.encodeHeader h).1.length) ∧
      ((c.encodeHeader h).1 = b.take off ↔ Shortest b h.payloadLen) := by
  obtain ⟨ha, -⟩ := accepts_of_decodeHeader hd
  obtain ⟨code, ext, -, hform, hbytes, hcode⟩ := bytes_of_decodeHeader hd
  obtain ⟨hle, hiff⟩ := lenBytes_of_lengthForm hform (maskBit h)
  have hoff : off = 2 + (ext.length + (maskBytes h).length) := by
    have hlen := congrArg List.length hbytes
    have hin := (exact_decodeHeader c).le hd
    rw [List.length_take, Nat.min_eq_left hin] at hlen
    simp only [List.length_cons, List.length_append] at hlen
    omega
  rw [encodeHeader_fst]
  refine ⟨?_, ?_, ?_⟩
  · rw [headerBytes, List.length_cons, List.length_append]
    omega
  · have := decodeHeader_headerBytes ha []
    rwa [List.append_nil] at this
  · have hsplit : headerBytes h = b.take off ↔
        lenBytes (maskBit h) h.payloadLen = (maskBit h ||| code) :: ext := by
      rw [hbytes, headerBytes, List.cons.injEq, ← List.cons_append, List.append_left_inj]
      exact and_iff_right rfl
    rw [hsplit, hiff, Shortest, lengthCode, hcode]

/-- A binary frame of five bytes with its length in two bytes is encoded to less bytes. -/
theorem encode_decode_header_long :
    (Codec.new.encodeHeader { Header.new .binary with payloadLen := 5 }).1.length ≤ 4 ∧
      ¬Shortest [0x82, 0x7E, 0, 5, 9] 5 := by
  have hd : Codec.new.decodeHeader.run [0x82, 0x7E, 0, 5, 9] =
      .ok (.done { Header.new .binary with payloadLen := 5 } 4) := by decide
  obtain ⟨hle, -, hiff⟩ := encode_decode_header hd
  exact ⟨hle, fun h => absurd (hiff.mpr h) (by decide)⟩

/-! ## Control frames -/

/-- The opcode of the first byte is that of a control frame. -/
def isControlByte (first : UInt8) : Prop :=
  ∃ opcode ∈ OpCode.tryFrom (first &&& 0xF), opcode.isControl = true

/-- The number of extended length bytes. -/
def extSize (code : UInt8) : ℕ := if code = twoExt then 2 else if code = eightExt then 8 else 0

/-- The value of the extended length bytes. -/
def extLen (b : List UInt8) : ℕ := beNat ((b.drop 2).take (extSize (lengthCode b)))

/-- Control frames have the one-byte length form only, and are rejected if they do not. -/
def ControlIsShort (c : Codec) (b : List UInt8) : Prop :=
  (∀ h off, c.decodeHeader.run b = .ok (.done h off) → h.opcode.isControl = true →
    (lengthCode b).toNat ≤ 125) ∧
  (isControlByte (b.getD 0 0) → 125 < (lengthCode b).toNat →
    2 + extSize (lengthCode b) ≤ b.length → ∃ e, c.decodeHeader.run b = .error e)

/-- The bytes of a control frame with a length in two or eight bytes that one byte has room for. -/
structure OverlongControl (c : Codec) (b : List UInt8) : Prop where
  control : isControlByte (b.getD 0 0)
  fin : (b.getD 0 0 &&& 0x80 != 0) = true
  rsv1 : (b.getD 0 0 &&& 0x40 != 0) = true → (c.reservedBits &&& 4 == 0) = false
  rsv2 : (b.getD 0 0 &&& 0x20 != 0) = true → (c.reservedBits &&& 2 == 0) = false
  rsv3 : (b.getD 0 0 &&& 0x10 != 0) = true → (c.reservedBits &&& 1 == 0) = false
  code : lengthCode b = twoExt ∨ lengthCode b = eightExt
  ext : 2 + extSize (lengthCode b) ≤ b.length
  small : extLen b ≤ maxCtrlBodySize
  len : extLen b ≤ c.maxDataSize.toNat

theorem opcode_of_decodeFlags {c : Codec} {first : UInt8} {h : Header}
    (hf : c.decodeFlags first = .ok h) : OpCode.tryFrom (first &&& 0xF) = some h.opcode := by
  unfold decodeFlags at hf
  dsimp only at hf
  split at hf
  · cases hf
  · next opcode hoc =>
    split_ifs at hf
    cases hf
    exact hoc

theorem decodeFlags_control {c : Codec} {first : UInt8} (hctl : isControlByte first) :
    (∃ h, c.decodeFlags first = .ok h) ↔
      (first &&& 0x80 != 0) = true ∧
      ((first &&& 0x40 != 0) = true → (c.reservedBits &&& 4 == 0) = false) ∧
      ((first &&& 0x20 != 0) = true → (c.reservedBits &&& 2 == 0) = false) ∧
      ((first &&& 0x10 != 0) = true → (c.reservedBits &&& 1 == 0) = false) := by
  obtain ⟨opcode, hoc, hc⟩ := hctl
  have hres : opcode.isReserved = false := by
    cases opcode <;> first | rfl | cases hc
  unfold decodeFlags
  rw [Option.mem_def.mp hoc]
  dsimp only
  rw [hres, hc, if_neg Bool.false_ne_true, Bool.true_and]
  constructor
  · rintro ⟨h, hf⟩
    have hr : ∀ {r b : Bool}, ¬(r && b) = true → r = true → b = false := by
      intro r b hrb hr
      rwa [hr, Bool.true_and, Bool.not_eq_true] at hrb
    split_ifs at hf with h₁ h₂ h₃ h₄
    exact ⟨by simpa using h₁, hr h₂, hr h₃, hr h₄⟩
  · rintro ⟨hfin, h₁, h₂, h₃⟩
    have hr : ∀ {r b : Bool}, (r = true → b = false) → ¬(r && b) = true := by
      intro r b hrb hand
      obtain ⟨hr, hb⟩ := Bool.and_eq_true_iff.mp hand
      rw [hrb hr] at hb
      cases hb
    rw [hfin, Bool.not_true, if_neg Bool.false_ne_true, if_neg (hr h₁), if_neg (hr h₂),
      if_neg (hr h₃)]
    exact ⟨_, rfl⟩

theorem decodeLen_ext {code : UInt8} (hcode : code = twoExt ∨ code = eightExt) {bs : List UInt8}
    (h : extSize code ≤ bs.length) :
    (decodeLen code).run bs = .ok (.done (beNat (bs.take (extSize code))) (extSize code)) := by
  have htake : ∀ {k : ℕ}, k ≤ bs.length →
      (do return beNat (← Parser.take k) : Parser Base.Error UInt8 ℕ).run bs =
        .ok (.done (beNat (bs.take k)) k) := by
    intro k hk
    have hlen : (bs.take k).length = k := List.length_take_of_le hk
    have hrun := Parser.run_take_bind (ε := Base.Error) hlen (fun xs => pure (beNat xs)) (bs.drop k)
    rwa [List.take_append_drop] at hrun
  rcases hcode with rfl | rfl
  · exact htake h
  · exact htake h

theorem decodeMask_ne_error (masked : Bool) (bs : List UInt8) (e : Base.Error) :
    (decodeMask masked).run bs ≠ .error e := by
  intro h
  unfold decodeMask at h
  split_ifs at h
  · rcases Parser.bind_eq_error h with h | ⟨a, o, -, h⟩
    · unfold Parser.take at h
      dsimp only at h
      split_ifs at h
    · cases h
  · cases h

theorem long_of_lengthCode {b : List UInt8} (h : 125 < (lengthCode b).toNat) :
    lengthCode b = twoExt ∨ lengthCode b = eightExt := by
  have hlt := (secondByte_bits (b.getD 1 0)).2
  rw [← lengthCode] at hlt
  rw [← UInt8.toNat_inj, ← UInt8.toNat_inj, show twoExt.toNat = 126 from rfl,
    show eightExt.toNat = 127 from rfl]
  omega

/-- A control frame with a small length in a long form is not rejected. -/
theorem OverlongControl.not_error {c : Codec} {b : List UInt8} (h : OverlongControl c b)
    (e : Base.Error) : c.decodeHeader.run b ≠ .error e := by
  obtain ⟨first, second, rest, rfl⟩ := exists_cons_cons (Nat.le_of_add_right_le h.ext)
  obtain ⟨flags, hflags⟩ := (decodeFlags_control h.control).mpr ⟨h.fin, h.rsv1, h.rsv2, h.rsv3⟩
  have hf : c.decodeFlags first = .ok flags := hflags
  have hext : extSize (lengthCode (first :: second :: rest)) ≤ rest.length := by
    have := h.ext
    simp only [List.length_cons] at this
    omega
  have hlen : (decodeLen (second &&& 0x7F)).run rest =
      .ok (.done (extLen (first :: second :: rest)) (extSize (second &&& 0x7F))) :=
    decodeLen_ext h.code hext
  have hsmall : (decide (maxCtrlBodySize < extLen (first :: second :: rest)) &&
      flags.opcode.isControl) = false := by
    rw [decide_eq_false (Nat.not_lt.mpr h.small), Bool.false_and]
  have hmax : decide (c.maxDataSize.toNat < extLen (first :: second :: rest)) = false :=
    decide_eq_false (Nat.not_lt.mpr h.len)
  intro he
  rw [decodeHeader_cons, Parser.run_lift_bind hf, Parser.run_bind_done hlen] at he
  have he := Parser.shift_eq_error (Parser.shift_eq_error he)
  rw [Parser.run_reject_bind hsmall, Parser.run_reject_bind hmax] at he
  rcases Parser.bind_eq_error he with he | ⟨mask, o, -, he⟩
  · exact decodeMask_ne_error _ _ _ he
  · cases he

theorem extLen_of_decodeHeader {c : Codec} {b : List UInt8} {h : Header} {off : ℕ}
    (hd : c.decodeHeader.run b = .ok (.done h off)) (hlong : 125 < (lengthCode b).toNat) :
    2 + extSize (lengthCode b) ≤ b.length ∧ extLen b = h.payloadLen := by
  obtain ⟨first, second, rest, rfl⟩ := two_le_of_decodeHeader hd
  obtain ⟨flags, len, mask, o₁, o₂, -, hlen, -, rfl, -⟩ := decodeHeader_eq_done hd
  have hcode : lengthCode (first :: second :: rest) = second &&& 0x7F := rfl
  simp only [extLen, hcode, List.length_cons, List.drop_succ_cons, List.drop_zero]
  unfold decodeLen at hlen
  rcases long_of_lengthCode hlong with h | h <;> rw [hcode] at h <;> rw [h] at hlen ⊢
  · rw [if_pos rfl] at hlen
    obtain ⟨hle, hval, -⟩ := take_beNat_eq_done hlen
    exact ⟨by rw [extSize, if_pos rfl]; omega, hval.symm⟩
  · rw [if_neg (by decide), if_pos rfl] at hlen
    obtain ⟨hle, hval, -⟩ := take_beNat_eq_done hlen
    exact ⟨by rw [extSize, if_neg (by decide), if_pos rfl]; omega, hval.symm⟩

theorem error_of_extLen {c : Codec} {b : List UInt8} (hctl : isControlByte (b.getD 0 0))
    (hlong : 125 < (lengthCode b).toNat) (hext : 2 + extSize (lengthCode b) ≤ b.length)
    (hlen : maxCtrlBodySize < extLen b ∨ c.maxDataSize.toNat < extLen b) :
    ∃ e, c.decodeHeader.run b = .error e := by
  obtain ⟨first, second, rest, rfl⟩ := exists_cons_cons (Nat.le_of_add_right_le hext)
  have hrest : extSize (lengthCode (first :: second :: rest)) ≤ rest.length := by
    simp only [List.length_cons] at hext
    omega
  have hrun : (decodeLen (second &&& 0x7F)).run rest =
      .ok (.done (extLen (first :: second :: rest)) (extSize (second &&& 0x7F))) :=
    decodeLen_ext (long_of_lengthCode hlong) hrest
  rw [decodeHeader_cons]
  rcases hf : c.decodeFlags first with e | flags
  · exact ⟨e, rfl⟩
  · obtain ⟨opcode, hoc, hc⟩ := hctl
    have hop : flags.opcode.isControl = true := by
      have := opcode_of_decodeFlags hf
      rw [show OpCode.tryFrom (first &&& 0xF) = some opcode from hoc] at this
      cases this
      exact hc
    rw [Parser.run_lift_bind rfl, Parser.run_bind_done hrun]
    by_cases hsmall : maxCtrlBodySize < extLen (first :: second :: rest)
    · have hr : (decide (maxCtrlBodySize < extLen (first :: second :: rest)) &&
          flags.opcode.isControl) = true := by rw [decide_eq_true hsmall, hop, Bool.true_and]
      rw [hr]
      exact ⟨_, rfl⟩
    · have hr : (decide (maxCtrlBodySize < extLen (first :: second :: rest)) &&
          flags.opcode.isControl) = false := by rw [decide_eq_false hsmall, Bool.false_and]
      rw [Parser.run_reject_bind hr, decide_eq_true (hlen.resolve_left hsmall)]
      exact ⟨_, rfl⟩

/-- **When control frames have the one-byte length form only**: unless the bytes are those of a
control frame, in order otherwise, with a length in a long form that one byte has room for. -/
theorem control_short_iff (c : Codec) (b : List UInt8) :
    ControlIsShort c b ↔ ¬OverlongControl c b := by
  constructor
  · rintro ⟨-, hrej⟩ ho
    have hlong : 125 < (lengthCode b).toNat := by
      rcases ho.code with h | h <;> rw [h] <;> decide
    obtain ⟨e, he⟩ := hrej ho.control hlong ho.ext
    exact ho.not_error e he
  · intro hno
    constructor
    · intro h off hd hc
      by_contra hlt
      have hlong : 125 < (lengthCode b).toNat := by omega
      obtain ⟨ha, -⟩ := accepts_of_decodeHeader hd
      obtain ⟨hext, hlen⟩ := extLen_of_decodeHeader hd hlong
      obtain ⟨first, second, rest, rfl⟩ := two_le_of_decodeHeader hd
      obtain ⟨flags, len, mask, o₁, o₂, hf, -, -, rfl, -⟩ := decodeHeader_eq_done hd
      have hctl : isControlByte first := ⟨_, opcode_of_decodeFlags hf, hc⟩
      obtain ⟨hfin, h₁, h₂, h₃⟩ := (decodeFlags_control hctl).mp ⟨flags, hf⟩
      exact hno ⟨hctl, hfin, h₁, h₂, h₃, long_of_lengthCode hlong, hext,
        hlen ▸ ha.control_len hc, hlen ▸ ha.len⟩
    · intro hctl hlong hext
      by_contra hok
      have hflags : ∃ flags, c.decodeFlags (b.getD 0 0) = .ok flags := by
        rcases hf : c.decodeFlags (b.getD 0 0) with e | flags
        · obtain ⟨first, second, rest, rfl⟩ := exists_cons_cons (Nat.le_of_add_right_le hext)
          refine absurd ⟨e, ?_⟩ hok
          rw [decodeHeader_cons, show c.decodeFlags first = .error e from hf]
          rfl
        · exact ⟨flags, rfl⟩
      obtain ⟨hfin, h₁, h₂, h₃⟩ := (decodeFlags_control hctl).mp hflags
      by_cases hlen : maxCtrlBodySize < extLen b ∨ c.maxDataSize.toNat < extLen b
      · exact hok (error_of_extLen hctl hlong hext hlen)
      · rw [not_or, Nat.not_lt, Nat.not_lt] at hlen
        exact hno ⟨hctl, hfin, h₁, h₂, h₃, long_of_lengthCode hlong, hext, hlen.1, hlen.2⟩

/-- A ping of five bytes with its length in two bytes is decoded. -/
theorem not_control_short :
    ¬∀ (c : Codec) (b : List UInt8) (h : Header) (off : ℕ),
      c.decodeHeader.run b = .ok (.done h off) → h.opcode.isControl = true →
        (lengthCode b).toNat ≤ 125 := by
  intro h
  have := h Codec.new [0x89, 0x7E, 0, 5] { Header.new .ping with payloadLen := 5 } 4 (by decide)
    (by decide)
  exact absurd this (by decide)

end Codec

end Soketto
