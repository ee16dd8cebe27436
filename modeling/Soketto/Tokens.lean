import Soketto.TwoServers

/-!
# Looking for tokens

One server looks for tokens in texts, the other one in bytes.

* **`map_toAsciiLowercase_utf8`**, `beq_utf8`: texts and their bytes without regard to case.
* `IsPrintable`: the bytes of values in which both find the same; **`any_splitOn_iff`**.
* **`token_iff`**: what either finds.
-/

set_option autoImplicit false

namespace Soketto.Handshake

open Text

/-! ## Without regard to case -/

theorem toNat_toAsciiLowercase (b : UInt8) :
    (toAsciiLowercase b).toNat = if 65 ≤ b.toNat ∧ b.toNat ≤ 90 then b.toNat + 32 else b.toNat := by
  have hiff : (65 ≤ b ∧ b ≤ 90) ↔ (65 ≤ b.toNat ∧ b.toNat ≤ 90) := by
    simp only [UInt8.le_iff_toNat_le]
    rfl
  unfold toAsciiLowercase
  split_ifs with h h' h'
  · rw [UInt8.toNat_add]
    exact Nat.mod_eq_of_lt (show b.toNat + 32 < 256 by omega)
  · exact absurd (hiff.mp h) h'
  · exact absurd (hiff.mpr h') h
  · rfl

theorem toNat_toLower (c : Char) :
    c.toLower.toNat = if 65 ≤ c.toNat ∧ c.toNat ≤ 90 then c.toNat + 32 else c.toNat := by
  have hiff : (c.val ≥ 'A'.val ∧ c.val ≤ 'Z'.val) ↔ (65 ≤ c.toNat ∧ c.toNat ≤ 90) := by
    simp only [ge_iff_le, UInt32.le_iff_toNat_le]
    rfl
  unfold Char.toLower
  split_ifs with h h' h'
  · have hadd : (c.val + 32).toNat = c.toNat + 32 := by
      rw [UInt32.toNat_add]
      exact Nat.mod_eq_of_lt (show c.toNat + 32 < 2 ^ 32 by omega)
    exact hadd
  · exact absurd (hiff.mp h) h'
  · exact absurd (hiff.mpr h') h
  · rfl

theorem le_of_mem_utf8EncodeChar {c : Char} (h : 128 ≤ c.toNat) {b : UInt8}
    (hb : b ∈ String.utf8EncodeChar c) : 128 ≤ b.toNat := by
  have hc : c.val.toNat = c.toNat := rfl
  unfold String.utf8EncodeChar at hb
  dsimp only at hb
  rw [hc] at hb
  split_ifs at hb
  · omega
  · simp only [List.mem_cons, List.not_mem_nil, or_false] at hb
    rcases hb with rfl | rfl <;> simp <;> omega
  · simp only [List.mem_cons, List.not_mem_nil, or_false] at hb
    rcases hb with rfl | rfl | rfl <;> simp <;> omega
  · simp only [List.mem_cons, List.not_mem_nil, or_false] at hb
    rcases hb with rfl | rfl | rfl | rfl <;> simp <;> omega

theorem map_utf8EncodeChar (c : Char) :
    (String.utf8EncodeChar c).map toAsciiLowercase = String.utf8EncodeChar c.toLower := by
  by_cases hc : c.toNat < 128
  · have hlower : c.toLower.toNat < 128 := by
      rw [toNat_toLower]
      split_ifs <;> omega
    rw [utf8EncodeChar_of_ascii hc, utf8EncodeChar_of_ascii hlower, List.map_singleton]
    refine congrArg (fun b => [b]) (UInt8.toNat_inj.mp ?_)
    rw [toNat_toAsciiLowercase, UInt8.toNat_ofNat_of_lt' (show c.toNat < 256 by omega),
      UInt8.toNat_ofNat_of_lt' (show c.toLower.toNat < 256 by omega), toNat_toLower]
  · have hlower : c.toLower = c := Char.toNat_inj.mp (by rw [toNat_toLower, if_neg (by omega)])
    rw [hlower]
    refine (List.map_congr_left fun b hb => ?_).trans (List.map_id _)
    have hb := le_of_mem_utf8EncodeChar (Nat.le_of_not_lt hc) hb
    exact UInt8.toNat_inj.mp (by rw [toNat_toAsciiLowercase, if_neg (by omega)]; rfl)

/-- **The bytes of a text in small letters** are those of the text with small letters. -/
theorem map_toAsciiLowercase_utf8 (s : String) :
    (utf8 s).map toAsciiLowercase = utf8 (.ofList (s.toList.map Char.toLower)) := by
  rw [utf8_eq_flatMap, utf8_eq_flatMap, String.toList_ofList, List.map_flatMap, List.flatMap_map]
  exact List.flatMap_congr fun c _ => map_utf8EncodeChar c

/-- Texts are the same without regard to case if and only if their bytes are. -/
theorem beq_utf8 (a b : String) :
    ((utf8 a).map toAsciiLowercase == (utf8 b).map toAsciiLowercase) = eqIgnoreAsciiCase a b := by
  rw [map_toAsciiLowercase_utf8, map_toAsciiLowercase_utf8, eqIgnoreAsciiCase, Bool.eq_iff_iff]
  simp only [beq_iff_eq]
  constructor
  · intro h
    exact String.ofList_injective (utf8_injective h)
  · intro h
    rw [h]

/-! ## Printable values -/

/-- Visible characters of ASCII, space and tab. -/
def IsPrintable (n : ℕ) : Prop := n = 9 ∨ 32 ≤ n ∧ n < 127

instance : DecidablePred IsPrintable := fun n => inferInstanceAs (Decidable (n = 9 ∨ 32 ≤ n ∧ n < 127))

theorem IsPrintable.lt {n : ℕ} (h : IsPrintable n) : n < 128 := by
  unfold IsPrintable at h
  omega

/-- The byte of a character. -/
def byteOf (c : Char) : UInt8 := UInt8.ofNat c.toNat

theorem isAsciiWhitespace_byteOf {c : Char} (h : IsPrintable c.toNat) :
    isAsciiWhitespace (byteOf c) = isWhitespace c := by
  have hall : ∀ n < 128, IsPrintable n →
      isAsciiWhitespace (UInt8.ofNat n) = isWhitespace (Char.ofNat n) := by decide
  have hc := hall c.toNat h.lt h
  rwa [Char.ofNat_toNat] at hc

theorem byteOf_beq_comma {c : Char} (h : IsPrintable c.toNat) : (byteOf c == byteOf ',') = (c == ',') := by
  have hall : ∀ n < 128, (UInt8.ofNat n == byteOf ',') = (Char.ofNat n == ',') := by decide
  have hc := hall c.toNat h.lt
  rwa [Char.ofNat_toNat] at hc

theorem part_eq {part : List Char} (h : ∀ c ∈ part, IsPrintable c.toNat) (ours : String) :
    ((trimMatches isAsciiWhitespace (part.map byteOf)).map toAsciiLowercase ==
      (utf8 ours).map toAsciiLowercase) = eqIgnoreAsciiCase (.ofList (trim part)) ours := by
  have htrim : trimMatches isAsciiWhitespace (part.map byteOf) = (trim part).map byteOf :=
    trimMatches_map fun c hc => isAsciiWhitespace_byteOf (h c hc)
  have hascii : ∀ c ∈ (String.ofList (trim part)).toList, c.toNat < 128 := by
    intro c hc
    rw [String.toList_ofList] at hc
    exact (h c (mem_of_mem_trimMatches hc)).lt
  have hbytes : utf8 (.ofList (trim part)) = (trim part).map byteOf := by
    rw [utf8_of_ascii hascii, String.toList_ofList]
    rfl
  rw [htrim, ← hbytes, beq_utf8]

/-- **In printable texts** a token is found byte by byte as well. -/
theorem any_splitOn_eq {text : String} (h : ∀ c ∈ text.toList, IsPrintable c.toNat) (ours : String) :
    ((utf8 text).splitOn 44).any (fun x =>
      (trimMatches isAsciiWhitespace x).map toAsciiLowercase == (utf8 ours).map toAsciiLowercase) =
      hasToken text ours := by
  have hsplit : (utf8 text).splitOn 44 = (text.toList.splitOn ',').map (List.map byteOf) := by
    rw [utf8_of_ascii fun c hc => (h c hc).lt]
    exact splitOn_map fun c hc => byteOf_beq_comma (h c hc)
  rw [hsplit, List.any_map, hasToken, Bool.eq_iff_iff, List.any_eq_true, List.any_eq_true]
  refine exists_congr fun part => and_congr_right fun hpart => ?_
  rw [Function.comp_apply, part_eq fun c hc => h c (mem_of_mem_splitOn hpart hc)]

section Headers

variable {headers : List Http.Header} {name ours : String}

/-- **In printable values** the server for HTTP requests finds what the other one finds. -/
theorem headerContainsValue_iff
    (h : ∀ x ∈ headers, ∀ b ∈ x.value, IsPrintable b.toNat) :
    headerContainsValue headers name (utf8 ours) = true ↔ HasToken headers name ours := by
  have hvalue : ∀ x ∈ headers, ((x.value.splitOn 44).any fun v =>
      (trimMatches isAsciiWhitespace v).map toAsciiLowercase == (utf8 ours).map toAsciiLowercase) =
        true ↔ ValueHas ours x.value := by
    intro x hx
    obtain ⟨text, htext, hchars⟩ := exists_utf8 fun b hb => (h x hx b hb).lt
    have hprintable : ∀ c ∈ text.toList, IsPrintable c.toNat := by
      intro c hc
      obtain ⟨b, hb, heq⟩ := hchars c hc
      rw [heq]
      exact h x hx b hb
    rw [← htext, any_splitOn_eq hprintable, ValueHas, fromUtf8_utf8]
    simp
  rw [headerContainsValue, HeaderMap.getAll, List.any_map, List.any_eq_true]
  simp only [List.mem_filter, and_assoc]
  refine exists_congr fun x => and_congr_right fun hx => and_congr_right fun _ => ?_
  exact hvalue x hx

theorem headerNotFound_iff (n : String) :
    expectAsciiHeader headers name ours = .error (.headerNotFound n) ↔
      n = name ∧ ∀ x ∈ headers, eqIgnoreAsciiCase x.name name = false := by
  rcases expectAsciiHeader_cases headers name ours with ⟨hno, h⟩ | ⟨hsome, h⟩
  · rw [h]
    constructor
    · intro heq
      cases heq
      exact ⟨rfl, hno⟩
    · rintro ⟨rfl, -⟩
      rfl
  · obtain ⟨x, hx, hname⟩ := hsome
    have hnot : ¬∀ x ∈ headers, eqIgnoreAsciiCase x.name name = false := fun hall => by
      simp [hall x hx] at hname
    rcases h with ⟨v, h⟩ | h | h <;> simp [h, hnot]

/-- **Looking for a token.** It is found if and only if some header of the name has a text for a value
and the token is one of its parts, whatever other headers there are; a header is missing only if there
is none of the name; and in printable values it is found byte by byte as well. -/
theorem token_iff (headers : List Http.Header) (name ours : String) :
    (expectAsciiHeader headers name ours = .ok () ↔
      ∃ x ∈ headers, eqIgnoreAsciiCase x.name name = true ∧
        ∃ text, fromUtf8 x.value = some text ∧
          ∃ part ∈ text.toList.splitOn ',', eqIgnoreAsciiCase (.ofList (trim part)) ours = true) ∧
    (∀ n, expectAsciiHeader headers name ours = .error (.headerNotFound n) ↔
      n = name ∧ ∀ x ∈ headers, eqIgnoreAsciiCase x.name name = false) ∧
    ((∀ x ∈ headers, ∀ b ∈ x.value, IsPrintable b.toNat) →
      (headerContainsValue headers name (utf8 ours) = true ↔
        expectAsciiHeader headers name ours = .ok ())) := by
  refine ⟨?_, headerNotFound_iff, fun h => ?_⟩
  · rw [expectAsciiHeader_iff]
    simp only [HasToken, ValueHas, hasToken, List.any_eq_true]
  · rw [headerContainsValue_iff h, expectAsciiHeader_iff]

end Headers

/-- The token is in the second header, in the second part. -/
def connectionHeaders : List Http.Header :=
  [⟨"Connection", utf8 "close"⟩, ⟨"connection", utf8 "keep-alive,\tUpgrade "⟩]

theorem printable_connectionHeaders :
    ∀ x ∈ connectionHeaders, ∀ b ∈ x.value, IsPrintable b.toNat := by
  intro x hx
  simp only [connectionHeaders, List.mem_cons, List.not_mem_nil, or_false] at hx
  rcases hx with rfl | rfl
  · exact forall_utf8 (p := IsPrintable) (List.forall_iff_forall_mem.mp (by decide))
  · exact forall_utf8 (p := IsPrintable) (List.forall_iff_forall_mem.mp (by decide))

/-- Both find it. -/
theorem token_iff_connectionHeaders :
    expectAsciiHeader connectionHeaders "CONNECTION" "upgrade" = .ok () ∧
      headerContainsValue connectionHeaders "CONNECTION" (utf8 "upgrade") = true := by
  obtain ⟨hok, -, hbytes⟩ := token_iff connectionHeaders "CONNECTION" "upgrade"
  have hfound := hok.mpr ⟨⟨"connection", utf8 "keep-alive,\tUpgrade "⟩, by simp [connectionHeaders],
    by decide, "keep-alive,\tUpgrade ", fromUtf8_utf8 _, "\tUpgrade ".toList, by decide, by decide⟩
  exact ⟨hfound, (hbytes printable_connectionHeaders).mpr hfound⟩

end Soketto.Handshake
