import Soketto.Handshake.Head

/-!
# A parser of heads

A parser that takes a head line by line. It is a little more lenient than the one of the program,
which checks every byte, but reads the same heads.

* `scanLines`: the lines up to the first empty one.
* `lineParser`: the parser; **`readsHeads_lineParser`**, and `parseHead_append` for more bytes.
-/

set_option autoImplicit false

namespace Soketto.Handshake

open Text

/-! ## The parser -/

/-- The lines up to the first empty one, without their ends, and the number of bytes with the empty
line. `line` is what was read of the current line, backwards. -/
def scanLines : List UInt8 → List UInt8 → Option (List (List UInt8) × ℕ)
  | _, [] => none
  | line, b :: bs =>
    if b = 10 then
      if line = [] ∨ line = [13] then some ([], 1)
      else (scanLines [] bs).map fun r =>
        ((line.dropWhile (· == 13)).reverse :: r.1, r.2 + 1)
    else (scanLines (b :: line) bs).map fun r => (r.1, r.2 + 1)

/-- The number of bytes of the empty lines at the start. -/
def skipEmptyLines : List UInt8 → ℕ
  | 13 :: 10 :: bs => skipEmptyLines bs + 2
  | 10 :: bs => skipEmptyLines bs + 1
  | _ => 0

/-- A header in its line. -/
def parseHeaderLine (l : List UInt8) : Option Http.Header :=
  match l.dropWhile (· != 58) with
  | [] => none
  | _ :: v => (fromUtf8 (l.takeWhile (· != 58))).map fun name => ⟨name, trimMatches isBlank v⟩

/-- The headers of all lines. -/
def parseHeaderLines : List (List UInt8) → Option (List Http.Header)
  | [] => some []
  | l :: ls =>
    match parseHeaderLine l, parseHeaderLines ls with
    | some h, some hs => some (h :: hs)
    | _, _ => none

/-- A head with a start line that is read by `start`. -/
def parseHead {α : Type} (start : List UInt8 → Option (List Http.Header → α)) (bs : List UInt8) :
    Except BoxedError (Http.Status α) :=
  match scanLines [] (bs.drop (skipEmptyLines bs)) with
  | none => .ok .needMore
  | some ([], _) => .error ⟨"invalid start line"⟩
  | some (l :: ls, n) =>
    match start l, parseHeaderLines ls with
    | some f, some headers =>
      if headers.length ≤ maxNumHeaders then .ok (.complete (f headers) (skipEmptyLines bs + n))
      else .error ⟨"too many headers"⟩
    | none, _ => .error ⟨"invalid start line"⟩
    | _, none => .error ⟨"invalid header"⟩

/-- The start line of a request. -/
def requestLine (l : List UInt8) : Option (List Http.Header → Http.Request) :=
  match l.splitOn 32 with
  | [method, target, version] =>
    if version = utf8 "HTTP/1.1" then some fun hs => ⟨fromUtf8 method, fromUtf8 target, some 1, hs⟩
    else none
  | _ => none

/-- The start line of a response. -/
def statusLine (l : List UInt8) : Option (List Http.Header → Http.Response) :=
  match l.splitOn 32 with
  | version :: [a, b, c] :: _ =>
    if version = utf8 "HTTP/1.1" then
      some fun hs => ⟨some 1, some (UInt16.ofNat
        (100 * (a.toNat - 48) + 10 * (b.toNat - 48) + (c.toNat - 48))), hs⟩
    else none
  | _ => none

/-- The parser. -/
def lineParser : Http.Parser := ⟨parseHead requestLine, parseHead statusLine⟩

/-! ## Lines -/

/-- A line that is not empty and has no line break in it. -/
structure IsLine (l : List UInt8) : Prop where
  ne_nil : l ≠ []
  lf : 10 ∉ l
  cr : 13 ∉ l

section Lines

variable {l rest : List UInt8} {ls : List (List UInt8)}

theorem scanLines_append_of_not_mem (line : List UInt8) (h : 10 ∉ l) (rest : List UInt8) :
    scanLines line (l ++ rest) =
      (scanLines (l.reverse ++ line) rest).map fun r => (r.1, r.2 + l.length) := by
  induction l generalizing line with
  | nil => simp
  | cons b l ih =>
    have hb : b ≠ 10 := fun hb => h (hb ▸ List.mem_cons_self)
    have hl : 10 ∉ l := fun hl => h (List.mem_cons_of_mem _ hl)
    rw [List.cons_append, scanLines, if_neg hb, ih (b :: line) hl, Option.map_map,
      List.reverse_cons, List.append_assoc]
    congr 1

theorem scanLines_line (h : IsLine l) (rest : List UInt8) :
    scanLines [] (l ++ 13 :: 10 :: rest) =
      (scanLines [] rest).map fun r => (l :: r.1, r.2 + (l.length + 2)) := by
  have hline : (13 :: l.reverse).dropWhile (· == 13) = l.reverse := by
    rw [List.dropWhile_cons_of_pos rfl, List.dropWhile_eq_self_iff]
    intro hpos
    have hmem := List.getElem_mem (l := l.reverse) hpos
    rw [List.mem_reverse] at hmem
    intro heq
    rw [beq_iff_eq] at heq
    exact h.cr (heq ▸ hmem)
  have hne : ¬(13 :: l.reverse = [] ∨ 13 :: l.reverse = [13]) := by
    simp [h.ne_nil]
  rw [scanLines_append_of_not_mem [] h.lf, List.append_nil, scanLines, if_neg (by decide), scanLines,
    if_pos rfl, if_neg hne, hline, List.reverse_reverse, Option.map_map, Option.map_map]
  congr 1
  funext r
  simp
  omega

/-- **All lines** of a head. -/
theorem scanLines_lines (hl : IsLine l) (hls : ∀ x ∈ ls, IsLine x) (rest : List UInt8) :
    scanLines [] (l ++ ls.flatMap ([13, 10] ++ ·) ++ [13, 10, 13, 10] ++ rest) =
      some (l :: ls, (l ++ ls.flatMap ([13, 10] ++ ·) ++ [13, 10, 13, 10]).length) := by
  induction ls generalizing l with
  | nil =>
    have hend : scanLines [] (13 :: 10 :: rest) = some ([], 2) := rfl
    have heq : l ++ [].flatMap ([13, 10] ++ ·) ++ [13, 10, 13, 10] ++ rest =
        l ++ 13 :: 10 :: 13 :: 10 :: rest := by simp
    rw [heq, scanLines_line hl, hend]
    simp
    omega
  | cons x ls ih =>
    have heq : l ++ (x :: ls).flatMap ([13, 10] ++ ·) ++ [13, 10, 13, 10] ++ rest =
        l ++ 13 :: 10 :: (x ++ ls.flatMap ([13, 10] ++ ·) ++ [13, 10, 13, 10] ++ rest) := by simp
    rw [heq, scanLines_line hl, ih (hls x List.mem_cons_self) fun y hy =>
      hls y (List.mem_cons_of_mem _ hy)]
    simp
    omega

theorem skipEmptyLines_line (h : IsLine l) (rest : List UInt8) : skipEmptyLines (l ++ rest) = 0 := by
  obtain ⟨b, l', rfl⟩ := List.exists_cons_of_ne_nil h.ne_nil
  have hlf : b ≠ 10 := fun hb => h.lf (hb ▸ List.mem_cons_self)
  have hcr : b ≠ 13 := fun hb => h.cr (hb ▸ List.mem_cons_self)
  rw [List.cons_append]
  unfold skipEmptyLines
  split
  · next heq => exact absurd (List.cons.inj heq).1 hcr
  · next heq => exact absurd (List.cons.inj heq).1 hlf
  · rfl

end Lines

/-! ## Heads are read back -/

theorem IsVisible.not_mem {bs : List UInt8} (h : IsVisible bs) {b : UInt8} (hb : b.toNat ≤ 32) :
    b ∉ bs := by
  intro hmem
  have hn := h b hmem
  omega

theorem not_mem_of_values {bs : List UInt8} (h : ∀ b ∈ bs, isValueByte b = true) {b : UInt8}
    (hb : isValueByte b = false) : b ∉ bs := by
  intro hmem
  rw [h b hmem] at hb
  cases hb

theorem IsTarget.isVisible {s : String} (h : IsTarget s) : IsVisible (utf8 s) := by
  refine forall_utf8 (p := fun n => 32 < n ∧ n < 127) fun c hc => ?_
  have hc := h.2 c hc
  simp only [isTargetChar, Bool.or_eq_true, Bool.and_eq_true, decide_eq_true_eq, beq_iff_eq] at hc
  omega

/-- A header in its line. -/
def headerLine (h : Http.Header) : List UInt8 := utf8 h.name ++ utf8 ": " ++ h.value

theorem headersBytes_eq (headers : List Http.Header) :
    Client.headersBytes headers = (headers.map headerLine).flatMap ([13, 10] ++ ·) := by
  have hcrlf : utf8 "\r\n" = [13, 10] := by decide
  rw [Client.headersBytes, List.flatMap_map, hcrlf]
  refine List.flatMap_congr fun h _ => ?_
  simp [headerLine]

theorem isLine_headerLine {h : Http.Header} (hv : ValidHeader h) : IsLine (headerLine h) := by
  have hcolon : utf8 ": " = [58, 32] := by decide
  have hvis := hv.name.isVisible
  refine ⟨by simp [headerLine, utf8_ne_nil hv.name.1], ?_, ?_⟩
  · simp [headerLine, hcolon, hvis.not_mem (b := 10) (by decide),
      not_mem_of_values hv.value.bytes (b := 10) (by decide)]
  · simp [headerLine, hcolon, hvis.not_mem (b := 13) (by decide),
      not_mem_of_values hv.value.bytes (b := 13) (by decide)]

theorem parseHeaderLine_headerLine {h : Http.Header} (hv : ValidHeader h) :
    parseHeaderLine (headerLine h) = some h := by
  have hcolon : utf8 ": " = [58, 32] := by decide
  have hline : headerLine h = utf8 h.name ++ 58 :: 32 :: h.value := by simp [headerLine, hcolon]
  have hname : ∀ b ∈ utf8 h.name, (b != 58) = true := by
    intro b hb
    rw [bne_iff_ne]
    rintro rfl
    exact hv.name.not_mem (by decide) hb
  have hdrop : (58 :: 32 :: h.value).dropWhile (· != 58) = 58 :: 32 :: h.value := rfl
  have htake : (58 :: 32 :: h.value).takeWhile (· != 58) = [] := rfl
  rw [parseHeaderLine, hline, List.dropWhile_append_of_pos hname, List.takeWhile_append_of_pos hname,
    hdrop, htake, List.append_nil]
  dsimp only
  rw [fromUtf8_utf8, trimMatches_cons (by decide), trimMatches_of_ends hv.value.first hv.value.last]
  rfl

theorem parseHeaderLines_map {headers : List Http.Header} (hv : ∀ h ∈ headers, ValidHeader h) :
    parseHeaderLines (headers.map headerLine) = some headers := by
  induction headers with
  | nil => rfl
  | cons h headers ih =>
    rw [List.map_cons, parseHeaderLines, parseHeaderLine_headerLine (hv h List.mem_cons_self),
      ih fun x hx => hv x (List.mem_cons_of_mem _ hx)]

theorem parseHead_head {α : Type} {start : List UInt8 → Option (List Http.Header → α)}
    {l : List UInt8} {f : List Http.Header → α} (hl : IsLine l) (hstart : start l = some f)
    {headers : List Http.Header} (hv : ∀ h ∈ headers, ValidHeader h)
    (hn : headers.length ≤ maxNumHeaders) (rest : List UInt8) :
    parseHead start (l ++ Client.headersBytes headers ++ utf8 "\r\n\r\n" ++ rest) =
      .ok (.complete (f headers)
        (l ++ Client.headersBytes headers ++ utf8 "\r\n\r\n").length) := by
  have hend : utf8 "\r\n\r\n" = [13, 10, 13, 10] := by decide
  have hskip : skipEmptyLines (l ++ Client.headersBytes headers ++ utf8 "\r\n\r\n" ++ rest) = 0 := by
    rw [List.append_assoc, List.append_assoc]
    exact skipEmptyLines_line hl _
  have hscan : scanLines [] (l ++ Client.headersBytes headers ++ utf8 "\r\n\r\n" ++ rest) =
      some (l :: headers.map headerLine,
        (l ++ Client.headersBytes headers ++ utf8 "\r\n\r\n").length) := by
    rw [headersBytes_eq, hend]
    refine scanLines_lines hl ?_ rest
    intro x hx
    obtain ⟨h, hh, rfl⟩ := List.mem_map.mp hx
    exact isLine_headerLine (hv h hh)
  rw [parseHead, hskip, List.drop_zero, hscan]
  dsimp only
  rw [hstart, parseHeaderLines_map hv]
  simp [hn]

theorem requestLine_eq {method target : String} (hm : IsToken method) (ht : IsTarget target) :
    IsLine (utf8 method ++ utf8 " " ++ utf8 target ++ utf8 " HTTP/1.1") ∧
      requestLine (utf8 method ++ utf8 " " ++ utf8 target ++ utf8 " HTTP/1.1") =
        some fun hs => ⟨some method, some target, some 1, hs⟩ := by
  have hspace : utf8 " " = [32] := by decide
  have hversion : utf8 " HTTP/1.1" = 32 :: utf8 "HTTP/1.1" := by decide
  have hproto : 10 ∉ utf8 "HTTP/1.1" ∧ 13 ∉ utf8 "HTTP/1.1" ∧ 32 ∉ utf8 "HTTP/1.1" := by
    decide
  have hmethod := hm.isVisible
  have htarget := ht.isVisible
  refine ⟨⟨by simp [utf8_ne_nil hm.1], ?_, ?_⟩, ?_⟩
  · simp [hspace, hversion, hproto, hmethod.not_mem (b := 10) (by decide),
      htarget.not_mem (b := 10) (by decide)]
  · simp [hspace, hversion, hproto, hmethod.not_mem (b := 13) (by decide),
      htarget.not_mem (b := 13) (by decide)]
  · have hsplit : (utf8 method ++ utf8 " " ++ utf8 target ++ utf8 " HTTP/1.1").splitOn 32 =
        [utf8 method, utf8 target, utf8 "HTTP/1.1"] := by
      have heq : utf8 method ++ utf8 " " ++ utf8 target ++ utf8 " HTTP/1.1" =
          fields 32 (utf8 method) [utf8 target, utf8 "HTTP/1.1"] := by
        simp [fields, hspace, hversion]
      rw [heq]
      refine splitOn_fields (hmethod.not_mem (by decide)) ?_
      simp [htarget.not_mem (b := 32) (by decide), hproto]
    rw [requestLine, hsplit]
    simp

theorem toNat_digit {n : ℕ} (h : n < 10) : (UInt8.ofNat (48 + n)).toNat = 48 + n :=
  UInt8.toNat_ofNat_of_lt' (show 48 + n < 256 by omega)

theorem isVisible_codeDigits {n : ℕ} (h : n < 1000) : IsVisible (codeDigits n) := by
  intro b hb
  simp only [codeDigits, List.mem_cons, List.not_mem_nil, or_false] at hb
  rcases hb with rfl | rfl | rfl <;> rw [toNat_digit (by omega)] <;> omega

theorem statusLine_eq {code : UInt16} (hc : 100 ≤ code.toNat ∧ code.toNat < 1000)
    {phrase : List UInt8} (hp : ∀ b ∈ phrase, isValueByte b = true) :
    IsLine (utf8 "HTTP/1.1 " ++ codeDigits code.toNat ++ utf8 " " ++ phrase) ∧
      statusLine (utf8 "HTTP/1.1 " ++ codeDigits code.toNat ++ utf8 " " ++ phrase) =
        some fun hs => ⟨some 1, some code, hs⟩ := by
  have hspace : utf8 " " = [32] := by decide
  have hversion : utf8 "HTTP/1.1 " = utf8 "HTTP/1.1" ++ [32] := by decide
  have hproto : 10 ∉ utf8 "HTTP/1.1" ∧ 13 ∉ utf8 "HTTP/1.1" ∧ 32 ∉ utf8 "HTTP/1.1" := by
    decide
  have hdigits := isVisible_codeDigits hc.2
  refine ⟨⟨by simp [hspace], ?_, ?_⟩, ?_⟩
  · simp [hspace, hversion, hproto, hdigits.not_mem (b := 10) (by decide),
      not_mem_of_values hp (b := 10) (by decide)]
  · simp [hspace, hversion, hproto, hdigits.not_mem (b := 13) (by decide),
      not_mem_of_values hp (b := 13) (by decide)]
  · have hsplit : (utf8 "HTTP/1.1 " ++ codeDigits code.toNat ++ utf8 " " ++ phrase).splitOn 32 =
        utf8 "HTTP/1.1" :: codeDigits code.toNat :: phrase.splitOn 32 := by
      have heq : utf8 "HTTP/1.1 " ++ codeDigits code.toNat ++ utf8 " " ++ phrase =
          utf8 "HTTP/1.1" ++ 32 :: (codeDigits code.toNat ++ 32 :: phrase) := by
        simp [hspace, hversion]
      rw [heq, List.splitOn_append_cons_self_of_not_mem hproto.2.2,
        List.splitOn_append_cons_self_of_not_mem (hdigits.not_mem (by decide))]
    have hcode : UInt16.ofNat (100 * (code.toNat / 100) + 10 * (code.toNat / 10 % 10) +
        code.toNat % 10) = code := by
      have hn : 100 * (code.toNat / 100) + 10 * (code.toNat / 10 % 10) + code.toNat % 10 =
          code.toNat := by omega
      rw [hn, UInt16.ofNat_toNat]
    rw [statusLine, hsplit, codeDigits]
    dsimp only
    rw [if_pos rfl, toNat_digit (by omega), toNat_digit (by omega), toNat_digit (by omega)]
    simp only [Nat.add_sub_cancel_left, hcode]

/-- **The parser reads heads back.** -/
theorem readsHeads_lineParser : ReadsHeads lineParser where
  request hm ht hv hn := by
    obtain ⟨hline, hstart⟩ := requestLine_eq hm ht
    have h := parseHead_head hline hstart hv hn []
    rw [List.append_nil] at h
    exact h
  response hc hp hv hn := by
    obtain ⟨hline, hstart⟩ := statusLine_eq hc hp
    have h := parseHead_head hline hstart hv hn []
    rw [List.append_nil] at h
    exact h

/-! ## More bytes -/

section More

variable {line bs : List UInt8} {r : List (List UInt8) × ℕ}

theorem scanLines_append (h : scanLines line bs = some r) (more : List UInt8) :
    scanLines line (bs ++ more) = some r := by
  induction bs generalizing line r with
  | nil => cases h
  | cons b bs ih =>
    rw [scanLines] at h
    rw [List.cons_append, scanLines]
    split_ifs at h ⊢
    · exact h
    · obtain ⟨r', hr', rfl⟩ := Option.map_eq_some_iff.mp h
      rw [ih hr', Option.map_some]
    · obtain ⟨r', hr', rfl⟩ := Option.map_eq_some_iff.mp h
      rw [ih hr', Option.map_some]

theorem scanLines_le (h : scanLines line bs = some r) : r.2 ≤ bs.length := by
  induction bs generalizing line r with
  | nil => cases h
  | cons b bs ih =>
    rw [scanLines] at h
    split_ifs at h
    · cases h
      exact Nat.succ_le_succ (Nat.zero_le _)
    · obtain ⟨r', hr', rfl⟩ := Option.map_eq_some_iff.mp h
      exact Nat.succ_le_succ (ih hr')
    · obtain ⟨r', hr', rfl⟩ := Option.map_eq_some_iff.mp h
      exact Nat.succ_le_succ (ih hr')

theorem skipEmptyLines_le (bs : List UInt8) : skipEmptyLines bs ≤ bs.length := by
  fun_induction skipEmptyLines bs with
  | case1 bs ih => simpa using ih
  | case2 bs ih => simpa using ih
  | case3 bs => exact Nat.zero_le _

theorem skipEmptyLines_append (h : scanLines [] (bs.drop (skipEmptyLines bs)) = some r)
    (more : List UInt8) : skipEmptyLines (bs ++ more) = skipEmptyLines bs := by
  fun_induction skipEmptyLines bs with
  | case1 bs ih =>
    rw [List.cons_append, List.cons_append, skipEmptyLines, ih (by simpa using h)]
  | case2 bs ih =>
    rw [List.cons_append, skipEmptyLines, ih (by simpa using h)]
  | case3 bs h₁ h₂ =>
    rw [List.drop_zero] at h
    unfold skipEmptyLines
    split
    · next bs' heq =>
      -- a line break that is not complete in `bs` would have stopped the scan
      match bs with
      | [] => cases h
      | [b] =>
        have hb : b = 13 := by simpa using (List.cons.inj heq).1
        subst hb
        cases h
      | b :: c :: cs =>
        have hb : b = 13 := (List.cons.inj heq).1
        have hc : c = 10 := (List.cons.inj (List.cons.inj heq).2).1
        exact (h₁ cs (by rw [hb, hc])).elim
    · next bs' heq =>
      match bs with
      | [] => cases h
      | b :: cs =>
        have hb : b = 10 := (List.cons.inj heq).1
        exact (h₂ cs (by rw [hb])).elim
    · rfl

variable {α : Type} {start : List UInt8 → Option (List Http.Header → α)} {value : α} {offset : ℕ}

/-- **More bytes** do not change what was read. -/
theorem parseHead_append (h : parseHead start bs = .ok (.complete value offset))
    (more : List UInt8) : parseHead start (bs ++ more) = .ok (.complete value offset) := by
  have hscan : ∃ r, scanLines [] (bs.drop (skipEmptyLines bs)) = some r := by
    rw [← Option.isSome_iff_exists, Option.isSome_iff_ne_none]
    intro hnone
    rw [parseHead, hnone] at h
    cases h
  obtain ⟨r, hr⟩ := hscan
  rw [parseHead, skipEmptyLines_append hr, List.drop_append_of_le_length (skipEmptyLines_le bs),
    scanLines_append hr]
  rw [parseHead, hr] at h
  exact h

theorem parseHead_offset_le (h : parseHead start bs = .ok (.complete value offset)) :
    offset ≤ bs.length := by
  have hk := skipEmptyLines_le bs
  unfold parseHead at h
  split at h
  · cases h
  · cases h
  · next l ls n hscan =>
    have hle := scanLines_le hscan
    rw [List.length_drop] at hle
    split at h
    · split_ifs at h
      cases h
      omega
    · cases h
    · cases h

end More

end Soketto.Handshake
