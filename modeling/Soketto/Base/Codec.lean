import Soketto.Base

/-!
# Encoding and decoding headers

* **`exact_decodeHeader`**: decoding from the bytes received so far is exact: more bytes never
  change an answer, and no byte beyond the header is asked for.
* `headerBytes h`: the bytes `encodeHeader` produces (`encodeHeader_fst`), whatever the scratch
  buffer held before.
* `Codec.Accepts c h`: the headers `c` decodes; **`decodeHeader_headerBytes`** and
  **`accepts_of_decodeHeader`**.
* `applyMask_applyMask`: masking is its own inverse.
-/

set_option autoImplicit false

namespace Soketto

open Incremental BigEndian

namespace Codec

/-! ## Exactness -/

theorem exact_decodeLen (code : UInt8) : Parser.Exact (decodeLen code) :=
  Parser.exact_ite _ (Parser.exact_bind (Parser.exact_take 2) fun _ => Parser.exact_pure _)
    (Parser.exact_ite _ (Parser.exact_bind (Parser.exact_take 8) fun _ => Parser.exact_pure _)
      (Parser.exact_pure _))

theorem exact_decodeMask (masked : Bool) : Parser.Exact (decodeMask masked) :=
  Parser.exact_ite _ (Parser.exact_bind (Parser.exact_take 4) fun _ => Parser.exact_pure _)
    (Parser.exact_pure _)

/-- **Header decoding is exact.** -/
theorem exact_decodeHeader (c : Codec) : Parser.Exact c.decodeHeader := by
  unfold decodeHeader
  refine Parser.exact_bind (Parser.exact_take 2) fun two => ?_
  refine Parser.exact_bind (Parser.exact_lift _) fun header => ?_
  refine Parser.exact_bind (exact_decodeLen _) fun len => ?_
  refine Parser.exact_bind (Parser.exact_reject _ _) fun _ => ?_
  refine Parser.exact_bind (Parser.exact_reject _ _) fun _ => ?_
  exact Parser.exact_bind (exact_decodeMask _) fun mask => Parser.exact_pure _

/-! ## What `encodeHeader` writes -/

/-- The second header byte and the extended payload length. -/
def lenBytes (secondByte : UInt8) (len : ℕ) : List UInt8 :=
  if len < twoExt.toNat then [secondByte ||| UInt8.ofNat len]
  else if len ≤ 65535 then (secondByte ||| twoExt) :: beBytes 2 len
  else (secondByte ||| eightExt) :: beBytes 8 len

/-- The mask bytes, if there are any. -/
def maskBytes (header : Header) : List UInt8 :=
  if header.masked then beBytes 4 header.mask.toNat else []

/-- The bytes of a header on the wire. -/
def headerBytes (header : Header) : List UInt8 :=
  firstByte header :: (lenBytes (maskBit header) header.payloadLen ++ maskBytes header)

theorem take_put (buf : HeaderBuffer) {offset k : ℕ} {bs : List UInt8}
    (h : offset + bs.length ≤ maxHeaderSize) (hk : k = offset + bs.length) :
    (buf.put offset bs h).bytes.take k = buf.bytes.take offset ++ bs := by
  have hb := buf.length_bytes
  have hl : (buf.bytes.take offset ++ bs).length = k := by
    rw [List.length_append, List.length_take]
    omega
  rw [HeaderBuffer.put, ← hl, List.take_left]

theorem take_putLen (buf : HeaderBuffer) (secondByte : UInt8) (len : ℕ) :
    (putLen buf secondByte len).1.bytes.take (putLen buf secondByte len).2 =
      buf.bytes.take 1 ++ lenBytes secondByte len := by
  unfold putLen lenBytes
  split_ifs
  · exact take_put buf (by simp [maxHeaderSize]) rfl
  · refine (take_put _ (by simp [maxHeaderSize]) (by rw [length_beBytes]; rfl)).trans ?_
    rw [take_put (k := 2) buf (by simp [maxHeaderSize]) rfl, List.append_assoc]
    rfl
  · refine (take_put _ (by simp [maxHeaderSize]) (by rw [length_beBytes]; rfl)).trans ?_
    rw [take_put (k := 2) buf (by simp [maxHeaderSize]) rfl, List.append_assoc]
    rfl

/-- **The scratch buffer never leaks**: the encoded bytes are a function of the header. -/
theorem encodeHeader_fst (c : Codec) (header : Header) :
    (c.encodeHeader header).1 = headerBytes header := by
  have h₁ : ∀ h, (putLen (c.headerBuffer.put 0 [firstByte header] h) (maskBit header)
      header.payloadLen).1.bytes.take (putLen (c.headerBuffer.put 0 [firstByte header] h)
        (maskBit header) header.payloadLen).2 =
      firstByte header :: lenBytes (maskBit header) header.payloadLen := fun h => by
    rw [take_putLen, take_put (k := 1) c.headerBuffer h rfl]
    rfl
  unfold encodeHeader headerBytes maskBytes
  dsimp only
  split_ifs
  · refine (take_put _ _ (by rw [length_beBytes])).trans ?_
    rw [h₁, List.cons_append]
  · rw [List.append_nil]
    exact h₁ _

theorem encodeHeader_snd (c : Codec) (header : Header) :
    (c.encodeHeader header).2.maxDataSize = c.maxDataSize ∧
      (c.encodeHeader header).2.reservedBits = c.reservedBits := by
  unfold encodeHeader
  dsimp only
  split_ifs <;> exact ⟨rfl, rfl⟩

/-! ## Bits of the first two bytes -/

theorem flagBits_decode (opcode : OpCode) : ∀ fin rsv1 rsv2 rsv3 : Bool,
    (flagBits fin rsv1 rsv2 rsv3 opcode &&& 0x80 != 0) = fin ∧
      (flagBits fin rsv1 rsv2 rsv3 opcode &&& 0x40 != 0) = rsv1 ∧
      (flagBits fin rsv1 rsv2 rsv3 opcode &&& 0x20 != 0) = rsv2 ∧
      (flagBits fin rsv1 rsv2 rsv3 opcode &&& 0x10 != 0) = rsv3 ∧
      OpCode.tryFrom (flagBits fin rsv1 rsv2 rsv3 opcode &&& 0xF) = some opcode := by
  cases opcode <;> decide

theorem secondByte_code (h : Header) (code : UInt8) (hc : code < 128) :
    ((maskBit h ||| code) &&& 0x80 != 0) = h.masked ∧ (maskBit h ||| code) &&& 0x7F = code := by
  have key : ∀ (m : Bool) (n : Fin 128),
      (((if m then 0x80 else 0) ||| UInt8.ofNat n) &&& 0x80 != 0) = m ∧
        ((if m then 0x80 else 0) ||| UInt8.ofNat n) &&& 0x7F = UInt8.ofNat n := by decide
  have := key h.masked ⟨code.toNat, hc⟩
  rwa [UInt8.ofNat_toNat] at this

/-! ## Round trip -/

/-- The headers the codec accepts. -/
structure Accepts (c : Codec) (h : Header) : Prop where
  not_reserved : h.opcode.isReserved = false
  fin : h.opcode.isControl = true → h.fin = true
  control_len : h.opcode.isControl = true → h.payloadLen ≤ maxCtrlBodySize
  rsv1 : h.rsv1 = true → (c.reservedBits &&& 4 == 0) = false
  rsv2 : h.rsv2 = true → (c.reservedBits &&& 2 == 0) = false
  rsv3 : h.rsv3 = true → (c.reservedBits &&& 1 == 0) = false
  len : h.payloadLen ≤ c.maxDataSize.toNat
  mask : h.masked = false → h.mask = 0

theorem beNat_take_append {k n : ℕ} (hn : n < 256 ^ k) (s : List UInt8) :
    (do return beNat (← Parser.take k) : Parser Base.Error UInt8 ℕ).run (beBytes k n ++ s) =
      .ok (.done n k) := by
  rw [Parser.run_take_bind (length_beBytes k n), Parser.run_pure, beNat_beBytes k n hn]
  rfl

theorem lenBytes_spec (len : ℕ) (hlen : len < 2 ^ 64) :
    ∃ code ext, code < 128 ∧ (∀ b, lenBytes b len = (b ||| code) :: ext) ∧
      ∀ s, (decodeLen code).run (ext ++ s) = .ok (.done len ext.length) := by
  have h126 : twoExt.toNat = 126 := rfl
  unfold lenBytes
  by_cases h₁ : len < twoExt.toNat
  · have hcode : (UInt8.ofNat len).toNat = len := Nat.mod_eq_of_lt (by omega)
    have hne : ∀ ext : UInt8, 126 ≤ ext.toNat → UInt8.ofNat len ≠ ext := fun ext hext he => by
      rw [← he, hcode] at hext
      omega
    refine ⟨UInt8.ofNat len, [], ?_, fun b => by rw [if_pos h₁], fun s => ?_⟩
    · change (UInt8.ofNat len).toNat < 128
      omega
    · rw [decodeLen, if_neg (hne _ (by decide)), if_neg (hne _ (by decide)), hcode]
      rfl
  · by_cases h₂ : len ≤ 65535
    · refine ⟨twoExt, beBytes 2 len, by decide, fun b => by rw [if_neg h₁, if_pos h₂], fun s => ?_⟩
      rw [decodeLen, if_pos rfl, beNat_take_append (by norm_num; omega), length_beBytes]
    · refine ⟨eightExt, beBytes 8 len, by decide, fun b => by rw [if_neg h₁, if_neg h₂],
        fun s => ?_⟩
      rw [decodeLen, if_neg (by decide), if_pos rfl, beNat_take_append (by norm_num; omega),
        length_beBytes]

theorem decodeFlags_firstByte {c : Codec} {h : Header} (ha : c.Accepts h) :
    c.decodeFlags (firstByte h) =
      .ok { Header.new h.opcode with fin := h.fin, rsv1 := h.rsv1, rsv2 := h.rsv2, rsv3 := h.rsv3 } := by
  obtain ⟨f₁, f₂, f₃, f₄, f₅⟩ := flagBits_decode h.opcode h.fin h.rsv1 h.rsv2 h.rsv3
  have hctl : (h.opcode.isControl && !h.fin) = false := by
    cases hc : h.opcode.isControl
    · rfl
    · rw [ha.fin hc]
      rfl
  have hr : ∀ {r : Bool} {b : UInt8}, (r = true → (b == 0) = false) → (r && b == 0) = false := by
    intro r b hb
    cases r
    · rfl
    · exact hb rfl
  simp only [decodeFlags, firstByte, f₁, f₂, f₃, f₄, f₅, ha.not_reserved, hctl, hr ha.rsv1,
    hr ha.rsv2, hr ha.rsv3, Bool.false_eq_true, if_false]

theorem decodeMask_maskBytes (h : Header) (hm : h.masked = false → h.mask = 0) (s : List UInt8) :
    (decodeMask h.masked).run (maskBytes h ++ s) = .ok (.done h.mask (maskBytes h).length) := by
  unfold decodeMask maskBytes
  cases hmask : h.masked
  · rw [hm hmask]
    rfl
  · have hlt : h.mask.toNat < 256 ^ 4 := h.mask.toNat_lt
    rw [if_pos rfl, if_pos rfl, Parser.run_take_bind (length_beBytes 4 _), Parser.run_pure,
      beNat_beBytes 4 _ hlt, UInt32.ofNat_toNat, length_beBytes]
    rfl

/-- **Header round trip**: an accepted header is decoded from its bytes, whatever follows. -/
theorem decodeHeader_headerBytes {c : Codec} {h : Header} (ha : c.Accepts h) (s : List UInt8) :
    c.decodeHeader.run (headerBytes h ++ s) = .ok (.done h (headerBytes h).length) := by
  obtain ⟨code, ext, hcode, hlen, hdec⟩ :=
    lenBytes_spec h.payloadLen (lt_of_le_of_lt ha.len c.maxDataSize.toNat_lt)
  obtain ⟨b₁, b₂⟩ := secondByte_code h code hcode
  have hsplit : headerBytes h ++ s =
      [firstByte h, maskBit h ||| code] ++ (ext ++ (maskBytes h ++ s)) := by
    simp [headerBytes, hlen]
  have hl : (headerBytes h).length = 2 + (ext.length + (maskBytes h).length) := by
    simp [headerBytes, hlen]
    omega
  have hcl : (decide (maxCtrlBodySize < h.payloadLen) && h.opcode.isControl) = false := by
    cases hc : h.opcode.isControl
    · exact Bool.and_false _
    · rw [Bool.and_true, decide_eq_false_iff_not]
      exact Nat.not_lt.mpr (ha.control_len hc)
  have hds : decide (c.maxDataSize.toNat < h.payloadLen) = false :=
    decide_eq_false (Nat.not_lt.mpr ha.len)
  rw [hsplit, hl]
  unfold decodeHeader
  rw [Parser.run_take_bind (by rfl)]
  simp only [List.getD_cons_zero, List.getD_cons_succ]
  rw [Parser.run_lift_bind (decodeFlags_firstByte ha), b₁, b₂, Parser.run_bind_done (hdec _),
    List.drop_left]
  dsimp only [Header.new]
  rw [Parser.run_reject_bind hcl, Parser.run_reject_bind hds,
    Parser.run_bind_done (decodeMask_maskBytes h ha.mask s)]
  rfl

theorem decodeFlags_ok {c : Codec} {first : UInt8} {h : Header} (hf : c.decodeFlags first = .ok h) :
    h.opcode.isReserved = false ∧ (h.opcode.isControl = true → h.fin = true) ∧
      (h.rsv1 = true → (c.reservedBits &&& 4 == 0) = false) ∧
      (h.rsv2 = true → (c.reservedBits &&& 2 == 0) = false) ∧
      (h.rsv3 = true → (c.reservedBits &&& 1 == 0) = false) := by
  have hr : ∀ {r b : Bool}, ¬(r && b) = true → r = true → b = false := by
    intro r b hrb hr
    rwa [hr, Bool.true_and, Bool.not_eq_true] at hrb
  unfold decodeFlags at hf
  dsimp only at hf
  split at hf
  · cases hf
  · split_ifs at hf with h₁ h₂ h₃ h₄ h₅
    cases hf
    refine ⟨Bool.eq_false_iff.mpr h₁, fun hc => ?_, hr h₃, hr h₄, hr h₅⟩
    exact Bool.not_eq_false' .. ▸ hr h₂ hc

theorem decodeMask_ok {masked : Bool} {bs : List UInt8} {mask : UInt32} {off : ℕ}
    (h : (decodeMask masked).run bs = .ok (.done mask off)) : masked = false → mask = 0 := by
  rintro rfl
  cases (Parser.lift_eq_done h).1
  rfl

/-- **Only accepted headers are decoded**, and a header has at least two bytes. -/
theorem accepts_of_decodeHeader {c : Codec} {bs : List UInt8} {h : Header} {off : ℕ}
    (hd : c.decodeHeader.run bs = .ok (.done h off)) : c.Accepts h ∧ 2 ≤ off := by
  obtain ⟨two, o₁, r₁, h₁, d₁, rfl⟩ := Parser.bind_eq_done hd
  obtain ⟨header, o₂, r₂, h₂, d₂, rfl⟩ := Parser.bind_eq_done d₁
  obtain ⟨len, o₃, r₃, h₃, d₃, rfl⟩ := Parser.bind_eq_done d₂
  obtain ⟨_, o₄, r₄, h₄, d₄, rfl⟩ := Parser.bind_eq_done d₃
  obtain ⟨_, o₅, r₅, h₅, d₅, rfl⟩ := Parser.bind_eq_done d₄
  obtain ⟨mask, o₆, r₆, h₆, d₆, rfl⟩ := Parser.bind_eq_done d₅
  cases (Parser.lift_eq_done d₆).1
  obtain ⟨-, -, rfl⟩ := Parser.take_eq_done h₁
  obtain ⟨hres, hfin, hr₁, hr₂, hr₃⟩ := decodeFlags_ok (Parser.lift_eq_done h₂).1
  have hctl := (Parser.reject_eq_done h₄).1
  have hmax := (Parser.reject_eq_done h₅).1
  refine ⟨⟨hres, hfin, fun hc => ?_, hr₁, hr₂, hr₃, ?_, decodeMask_ok h₆⟩, by omega⟩
  · dsimp only at hc
    rw [hc, Bool.and_true, decide_eq_false_iff_not] at hctl
    exact Nat.le_of_not_lt hctl
  · exact Nat.le_of_not_lt (of_decide_eq_false hmax)

end Codec

/-! ## Masking -/

@[simp] theorem length_applyMask (h : Header) (data : List UInt8) :
    (applyMask h data).length = data.length := by
  unfold applyMask xorCycle
  split_ifs
  · exact List.length_mapIdx
  · rfl

theorem xorCycle_xorCycle (key data : List UInt8) : xorCycle key (xorCycle key data) = data := by
  unfold xorCycle
  refine List.ext_getElem (by simp) fun i h₁ h₂ => ?_
  simp only [List.getElem_mapIdx, UInt8.xor_assoc, UInt8.xor_self, UInt8.xor_zero]

/-- **Masking is its own inverse.** -/
@[simp] theorem applyMask_applyMask (h : Header) (data : List UInt8) :
    applyMask h (applyMask h data) = data := by
  unfold applyMask
  split_ifs
  · exact xorCycle_xorCycle _ _
  · rfl

end Soketto
