import Soketto.Handshake

/-!
# Extension headers are read back

What `appendExtensionHeaderValue` writes, `parseOffers` reads.

* `IsPlain`, `IsToken`: texts without separators, and tokens as HTTP has them.
* `extensionText`: an extension as it is written; **`parseOffer_extensionText`**.
* `offerHeaders`: the headers in which extensions are written; `parseOffers_offerLine`.
* `FromHeader`: what extensions are configured with; **`FromHeader.noComma`**, **`offering_offerHeaders`**.
* **`configureHeaders_ok`**: extensions that do not fail are configured with such headers.
-/

set_option autoImplicit false

namespace Soketto.Handshake

open Text

/-! ## Texts without separators -/

/-- The text has no separator in it, and no whitespace at its ends. -/
structure IsPlain (cs : List Char) : Prop where
  comma : ',' ∉ cs
  semicolon : ';' ∉ cs
  equals : '=' ∉ cs
  quote : '"' ∉ cs
  trimmed : trim cs = cs

/-- The characters of a token: digits, letters and some others of ASCII. -/
def isTokenChar (c : Char) : Bool :=
  let n := c.toNat
  (48 ≤ n && n ≤ 57) || (65 ≤ n && n ≤ 90) || (97 ≤ n && n ≤ 122) || n == 33 ||
    (35 ≤ n && n ≤ 39) || n == 42 || n == 43 || n == 45 || n == 46 || (94 ≤ n && n ≤ 96) ||
    n == 124 || n == 126

/-- The text is a token. -/
def IsToken (s : String) : Prop := s ≠ "" ∧ ∀ c ∈ s.toList, isTokenChar c = true

/-- A parameter whose name and value are tokens. -/
def IsTokenParam (p : Param) : Prop := IsToken p.name ∧ ∀ v ∈ p.value, IsToken v

/-- The parameters are tokens. -/
def TokenParams (ps : List Param) : Prop := ∀ p ∈ ps, IsTokenParam p

/-- There is no comma in the parameters. -/
def NoComma (ps : List Param) : Prop :=
  ∀ p ∈ ps, ',' ∉ p.name.toList ∧ ∀ v ∈ p.value, ',' ∉ v.toList

/-- Extensions are configured with such parameters: they stand in an offer of some header. -/
def FromHeader (ps : List Param) : Prop := ∃ line, ∃ o ∈ parseOffers line, o.params = ps

theorem isToken_iff (s : String) : s ≠ "" ∧ s.toList.all isTokenChar = true ↔ IsToken s := by
  rw [IsToken, List.all_eq_true]

instance (s : String) : Decidable (IsToken s) := decidable_of_iff _ (isToken_iff s)

theorem toNat_of_isTokenChar {c : Char} (h : isTokenChar c = true) :
    32 < c.toNat ∧ c.toNat < 127 := by
  simp only [isTokenChar, Bool.or_eq_true, Bool.and_eq_true, decide_eq_true_eq, beq_iff_eq] at h
  omega

theorem isWhitespace_of_isTokenChar {c : Char} (h : isTokenChar c = true) :
    isWhitespace c = false := by
  have hn := toNat_of_isTokenChar h
  simp only [isWhitespace, Bool.or_eq_false_iff, Bool.and_eq_false_iff, decide_eq_false_iff_not,
    beq_eq_false_iff_ne]
  omega

theorem IsToken.isPlain {s : String} (h : IsToken s) : IsPlain s.toList := by
  have hno : ∀ c, isTokenChar c = false → c ∉ s.toList := by
    intro c hc hmem
    rw [h.2 c hmem] at hc
    cases hc
  refine ⟨hno _ (by decide), hno _ (by decide), hno _ (by decide), hno _ (by decide), ?_⟩
  exact trimMatches_of_forall fun c hc => isWhitespace_of_isTokenChar (h.2 c hc)

theorem TokenParams.isPlain {ps : List Param} (h : TokenParams ps) :
    ∀ p ∈ ps, IsPlain p.name.toList ∧ ∀ v ∈ p.value, IsPlain v.toList :=
  fun p hp => ⟨(h p hp).1.isPlain, fun v hv => ((h p hp).2 v hv).isPlain⟩

/-- **No comma is delivered**: header values are split at their commas first. -/
theorem FromHeader.noComma {ps : List Param} (h : FromHeader ps) : NoComma ps := by
  obtain ⟨line, o, ho, rfl⟩ := h
  obtain ⟨part, hpart, rfl⟩ := List.mem_map.mp ho
  have hno : ',' ∉ part := not_mem_of_mem_splitOn hpart
  intro p hp
  obtain ⟨q, hq, rfl⟩ := List.mem_map.mp hp
  -- what is read of a parameter are characters of it
  have hin : ∀ keyValue ∈ q.splitOn '=', ',' ∉ keyValue := fun keyValue hk hc =>
    hno (mem_of_mem_splitOn (List.mem_of_mem_tail hq) (mem_of_mem_splitOn hk hc))
  constructor
  · intro hc
    simp only [parseParam, Param.new, Param.setValue, String.toList_ofList] at hc
    cases hs : q.splitOn '=' with
    | nil => exact List.splitOn_ne_nil _ _ hs
    | cons k ks =>
      rw [hs] at hc hin
      exact hin k List.mem_cons_self (mem_of_mem_trimMatches hc)
  · intro v hv hc
    simp only [parseParam, Param.new, Param.setValue, Option.mem_def, Option.map_eq_some_iff] at hv
    obtain ⟨w, hw, rfl⟩ := hv
    rw [String.toList_ofList] at hc
    exact hin w (List.mem_of_mem_tail (List.mem_of_mem_head? hw))
      (mem_of_mem_trimMatches (mem_of_mem_trimMatches hc))

/-! ## Writing and reading extensions -/

/-- A parameter as it is written after its semicolon. -/
def paramText (p : Param) : List Char :=
  fields '=' (' ' :: p.name.toList) (p.value.map String.toList).toList

section

variable {E : Type} [Extension E]

/-- An extension as it is written. -/
def extensionText (e : E) : List Char :=
  fields ';' (Extension.name e).toList ((Extension.params e).map paramText)

/-- Extensions as they are written. -/
def offerLine : List E → String
  | [] => ""
  | e :: es => .ofList (fields ',' (extensionText e) (es.map fun e => ' ' :: extensionText e))

/-- The headers in which extensions are written. -/
def offerHeaders (es : List E) : List Http.Header :=
  if es.isEmpty then [] else [⟨secWebSocketExtensions, appendExtensionHeaderValue es⟩]

theorem utf8_paramText (p : Param) : paramBytes p = utf8 (.ofList (';' :: paramText p)) := by
  obtain ⟨name, value⟩ := p
  have hvalue : (value.elim [] fun v => utf8 "=" ++ utf8 v) =
      utf8 (.ofList ((value.map String.toList).toList.flatMap ('=' :: ·))) := by
    cases value with
    | none => rfl
    | some v =>
      have hv := utf8_ofList_append ['='] v.toList
      rw [String.ofList_toList] at hv
      simpa using hv.symm
  have hname := utf8_ofList_append name.toList ((value.map String.toList).toList.flatMap ('=' :: ·))
  have hsemi := utf8_ofList_append [';', ' ']
    (name.toList ++ (value.map String.toList).toList.flatMap ('=' :: ·))
  rw [hname, String.ofList_toList] at hsemi
  rw [paramBytes, hvalue, List.append_assoc]
  exact hsemi.symm

theorem utf8_extensionText (e : E) : extensionBytes e = utf8 (.ofList (extensionText e)) := by
  rw [extensionBytes, extensionText, fields, utf8_ofList_append, String.ofList_toList,
    List.flatMap_map, utf8_ofList_flatMap]
  congr 1
  exact List.flatMap_congr fun p _ => utf8_paramText p

theorem utf8_offerLine (es : List E) : appendExtensionHeaderValue es = utf8 (offerLine es) := by
  cases es with
  | nil => rfl
  | cons e es =>
    induction es generalizing e with
    | nil => simp [appendExtensionHeaderValue, offerLine, fields, utf8_extensionText]
    | cons e' es ih =>
      have hcomma := utf8_ofList_append [',', ' ']
        (fields ',' (extensionText e') (es.map fun e => ' ' :: extensionText e))
      have hfirst := utf8_ofList_append (extensionText e)
        (',' :: ' ' :: fields ',' (extensionText e') (es.map fun e => ' ' :: extensionText e))
      have hline : appendExtensionHeaderValue (e' :: es) =
          utf8 (.ofList (fields ',' (extensionText e') (es.map fun e => ' ' :: extensionText e))) :=
        ih e'
      have hfields : fields ',' (extensionText e) ((e' :: es).map fun e => ' ' :: extensionText e) =
          extensionText e ++ (',' :: ' ' :: fields ',' (extensionText e')
            (es.map fun e => ' ' :: extensionText e)) := by simp [fields]
      rw [appendExtensionHeaderValue, utf8_extensionText, hline, offerLine, hfields, hfirst,
        List.append_assoc]
      · exact congrArg _ hcomma.symm
      · intro h
        cases h

theorem appendExtensions_eq (es : List E) :
    appendExtensions es = (offerHeaders es).flatMap fun h =>
      utf8 "\r\n" ++ utf8 h.name ++ utf8 ": " ++ h.value := by
  have htext : utf8 "\r\nSec-WebSocket-Extensions: " =
      utf8 "\r\n" ++ utf8 secWebSocketExtensions ++ utf8 ": " := by decide
  unfold appendExtensions offerHeaders
  split_ifs
  · rfl
  · simp [htext]

/-! ## Reading back -/

omit [Extension E] in
theorem trim_space (cs : List Char) : trim (' ' :: cs) = trim cs :=
  trimMatches_cons (by decide) cs

omit [Extension E] in
theorem not_mem_paramText {c : Char} {p : Param} (hc : c ≠ ' ' ∧ c ≠ '=') (hname : c ∉ p.name.toList)
    (hvalue : ∀ v ∈ p.value, c ∉ v.toList) : c ∉ paramText p := by
  refine not_mem_fields hc.2 ?_ ?_
  · intro h
    rcases List.mem_cons.mp h with h | h
    · exact hc.1 h
    · exact hname h
  · intro cs hcs
    obtain ⟨v, hv, rfl⟩ := Option.mem_map.mp (Option.mem_toList.mp hcs)
    exact hvalue v hv

omit [Extension E] in
theorem parseParam_paramText {p : Param} (hname : IsPlain p.name.toList)
    (hvalue : ∀ v ∈ p.value, IsPlain v.toList) : parseParam (paramText p) = p := by
  obtain ⟨name, value⟩ := p
  have hsplit : (paramText ⟨name, value⟩).splitOn '=' =
      (' ' :: name.toList) :: (value.map String.toList).toList := by
    refine splitOn_fields ?_ ?_
    · intro h
      rcases List.mem_cons.mp h with h | h
      · exact absurd h (by decide)
      · exact hname.equals h
    · intro cs hcs
      obtain ⟨v, hv, rfl⟩ := Option.mem_map.mp (Option.mem_toList.mp hcs)
      exact (hvalue v hv).equals
  rw [parseParam, hsplit]
  cases value with
  | none => simp [trim_space, hname.trimmed, Param.new, Param.setValue]
  | some v =>
    have hv := hvalue v rfl
    have hquote : trimMatches (· == '"') v.toList = v.toList := by
      refine trimMatches_of_forall fun c hc => ?_
      rw [beq_eq_false_iff_ne]
      rintro rfl
      exact hv.quote hc
    simp [trim_space, hname.trimmed, hv.trimmed, hquote, Param.new, Param.setValue]

omit [Extension E] in
theorem parseOffer_space (cs : List Char) : parseOffer (' ' :: cs) = parseOffer cs := by
  obtain ⟨x, xs, hx⟩ : ∃ x xs, cs.splitOn ';' = x :: xs :=
    List.exists_cons_of_ne_nil (List.splitOn_ne_nil ';' cs)
  have hsplit : (' ' :: cs).splitOn ';' = (' ' :: x) :: xs := by
    rw [List.splitOn_cons_eq_if_modifyHead, if_neg (by decide), hx]
    rfl
  simp [parseOffer, hsplit, hx, trim_space]

theorem name_parseOffer {e : E} (h : IsPlain (Extension.name e).toList) :
    (parseOffer (extensionText e)).name = Extension.name e := by
  rw [parseOffer, extensionText]
  dsimp only
  rw [headD_splitOn_fields h.semicolon, h.trimmed, String.ofList_toList]

/-- **An extension with plain parameters is read back.** -/
theorem parseOffer_extensionText {e : E} (hname : IsPlain (Extension.name e).toList)
    (hparams : ∀ p ∈ Extension.params e, IsPlain p.name.toList ∧ ∀ v ∈ p.value, IsPlain v.toList) :
    parseOffer (extensionText e) = ⟨Extension.name e, Extension.params e⟩ := by
  have hsplit : (extensionText e).splitOn ';' =
      (Extension.name e).toList :: (Extension.params e).map paramText := by
    refine splitOn_fields hname.semicolon ?_
    intro cs hcs
    obtain ⟨p, hp, rfl⟩ := List.mem_map.mp hcs
    obtain ⟨hn, hv⟩ := hparams p hp
    exact not_mem_paramText (by decide) hn.semicolon fun v hv' => (hv v hv').semicolon
  have hps : ((Extension.params e).map paramText).map parseParam = Extension.params e := by
    rw [List.map_map]
    exact (List.map_congr_left fun p hp =>
      parseParam_paramText (hparams p hp).1 (hparams p hp).2).trans (List.map_id _)
  rw [parseOffer, hsplit]
  simp [hname.trimmed, hps]

/-- **The offers of a header** are those of its extensions, when no comma is in them. -/
theorem parseOffers_offerLine {es : List E} (hne : es ≠ [])
    (h : ∀ e ∈ es, ',' ∉ extensionText e) :
    parseOffers (offerLine es) = es.map fun e => parseOffer (extensionText e) := by
  cases es with
  | nil => exact absurd rfl hne
  | cons e es =>
    have hsplit : (offerLine (e :: es)).toList.splitOn ',' =
        extensionText e :: es.map fun e => ' ' :: extensionText e := by
      rw [offerLine, String.toList_ofList]
      refine splitOn_fields (h e List.mem_cons_self) ?_
      intro cs hcs hmem
      obtain ⟨e', he', rfl⟩ := List.mem_map.mp hcs
      rcases List.mem_cons.mp hmem with hc | hc
      · exact absurd hc (by decide)
      · exact h e' (List.mem_cons_of_mem _ he') hc
    rw [parseOffers, hsplit]
    simp [parseOffer_space]

theorem comma_not_mem_extensionText {e : E} (hname : ',' ∉ (Extension.name e).toList)
    (hparams : NoComma (Extension.params e)) : ',' ∉ extensionText e := by
  refine not_mem_fields (by decide) hname ?_
  intro cs hcs
  obtain ⟨p, hp, rfl⟩ := List.mem_map.mp hcs
  exact not_mem_paramText (by decide) (hparams p hp).1 (hparams p hp).2

end

/-! ## Configuring extensions -/

section Configure

variable {E : Type} [Extension E] {D : List Param → Prop} {P : E → Prop}

theorem configureFirst_ok (hP : ∀ e, P e → ∀ ps, D ps → (Extension.configure e ps).1 = .ok ())
    {offer : Offer} (ho : D offer.params) {es : List E} (h : ∀ e ∈ es, Extension.Always D P e) :
    (configureFirst offer es).1 = .ok () ∧
      ∀ e ∈ (configureFirst offer es).2, Extension.Always D P e := by
  induction es with
  | nil => exact ⟨rfl, h⟩
  | cons e es ih =>
    have he := h e List.mem_cons_self
    have hes : ∀ x ∈ es, Extension.Always D P x := fun x hx => h x (List.mem_cons_of_mem _ hx)
    rw [configureFirst]
    split_ifs
    · refine ⟨hP e he.now offer.params ho, ?_⟩
      exact List.forall_mem_cons.mpr ⟨he.configure ho, hes⟩
    · exact ⟨(ih hes).1, List.forall_mem_cons.mpr ⟨he, (ih hes).2⟩⟩

theorem configureOffers_ok (hP : ∀ e, P e → ∀ ps, D ps → (Extension.configure e ps).1 = .ok ())
    {offers : List Offer} (ho : ∀ o ∈ offers, D o.params) {es : List E}
    (h : ∀ e ∈ es, Extension.Always D P e) :
    (configureOffers es offers).1 = .ok () ∧
      ∀ e ∈ (configureOffers es offers).2, Extension.Always D P e := by
  induction offers generalizing es with
  | nil => exact ⟨rfl, h⟩
  | cons o offers ih =>
    obtain ⟨hok, hall⟩ := configureFirst_ok hP (ho o List.mem_cons_self) h
    rw [configureOffers]
    rcases hc : configureFirst o es with ⟨r, es'⟩
    rw [hc] at hok hall
    obtain rfl : r = .ok () := hok
    exact ih (fun o' ho' => ho o' (List.mem_cons_of_mem _ ho')) hall

/-- The header is not one of extensions, or it is a text, and the parameters in it are of the kind
`D`. -/
def Offering (D : List Param → Prop) (h : Http.Header) : Prop :=
  eqIgnoreAsciiCase h.name secWebSocketExtensions = true →
    ∃ line, fromUtf8 h.value = some line ∧ ∀ o ∈ parseOffers line, D o.params

/-- **Extensions that do not fail** are configured with such headers. -/
theorem configureHeaders_ok (hP : ∀ e, P e → ∀ ps, D ps → (Extension.configure e ps).1 = .ok ())
    {headers : List Http.Header} (hh : ∀ h ∈ headers, Offering D h) {es : List E}
    (h : ∀ e ∈ es, Extension.Always D P e) :
    ∃ es', configureHeaders es headers = (.ok (), es') ∧ ∀ e ∈ es', Extension.Always D P e := by
  induction headers generalizing es with
  | nil => exact ⟨es, rfl, h⟩
  | cons x headers ih =>
    have htail := fun y hy => hh y (List.mem_cons_of_mem x hy)
    rw [configureHeaders]
    split_ifs with hname
    · obtain ⟨line, hline, hoffers⟩ := hh x List.mem_cons_self hname
      obtain ⟨hok, hall⟩ := configureOffers_ok hP hoffers h
      rw [hline]
      dsimp only
      rw [configureExtensions]
      rcases hc : configureOffers es (parseOffers line) with ⟨r, es'⟩
      rw [hc] at hok hall
      obtain rfl : r = .ok () := hok
      exact ih htail hall
    · exact ih htail h

theorem configureHeaders_offers {T : Type} [Extension T] {es : List E}
    (h : ∀ e ∈ es, ',' ∉ extensionText e) (ts : List T) :
    configureHeaders ts (offerHeaders es) =
      configureOffers ts (es.map fun e => parseOffer (extensionText e)) := by
  cases es with
  | nil => rfl
  | cons e es =>
    have hname : eqIgnoreAsciiCase secWebSocketExtensions secWebSocketExtensions = true :=
      beq_self_eq_true _
    rw [offerHeaders, if_neg (by simp), configureHeaders, if_pos hname, utf8_offerLine,
      fromUtf8_utf8]
    dsimp only
    rw [configureExtensions, parseOffers_offerLine (List.cons_ne_nil e es) h]
    rcases configureOffers ts ((e :: es).map fun e => parseOffer (extensionText e)) with ⟨_ | _, ts'⟩
    · rfl
    · rfl

/-- The header in which extensions are written holds their offers. -/
theorem offering_of_offerLine {es : List E}
    (ho : es ≠ [] → ∀ o ∈ parseOffers (offerLine es), D o.params) {h : Http.Header}
    (hh : h ∈ offerHeaders es) : Offering D h := by
  unfold offerHeaders at hh
  split_ifs at hh with hnil
  · cases hh
  · obtain rfl := List.mem_singleton.mp hh
    have hne : es ≠ [] := by
      rintro rfl
      exact hnil rfl
    exact fun _ => ⟨offerLine es, by rw [utf8_offerLine, fromUtf8_utf8], ho hne⟩

theorem fromHeader_offerHeaders {es : List E} {h : Http.Header} (hh : h ∈ offerHeaders es) :
    Offering FromHeader h :=
  offering_of_offerLine (fun _ o ho => ⟨_, o, ho, rfl⟩) hh

/-- **Tokens are delivered as tokens.** -/
theorem offering_offerHeaders {es : List E} (hname : ∀ e ∈ es, IsToken (Extension.name e))
    (hparams : ∀ e ∈ es, TokenParams (Extension.params e)) {h : Http.Header} (hh : h ∈ offerHeaders es) :
    Offering TokenParams h := by
  refine offering_of_offerLine (fun hne o ho => ?_) hh
  have hcomma : ∀ e ∈ es, ',' ∉ extensionText e := fun e he =>
    comma_not_mem_extensionText (hname e he).isPlain.comma fun p hp =>
      ⟨((hparams e he).isPlain p hp).1.comma, fun v hv => (((hparams e he).isPlain p hp).2 v hv).comma⟩
  rw [parseOffers_offerLine hne hcomma] at ho
  obtain ⟨e, he, rfl⟩ := List.mem_map.mp ho
  rw [parseOffer_extensionText (hname e he).isPlain (hparams e he).isPlain]
  exact hparams e he

end Configure

end Soketto.Handshake
