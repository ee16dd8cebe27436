import Soketto.Handshake.Render

/-!
# Which extensions are configured

What was written for extensions is parsed, and the extensions of the other side are configured with it.

* `tracedOffers`: `configureOffers` with its calls of `configure`; **`tracedOffers_fst`**: it is the same
  but for them.
* `firstCall`: the call that an offer leads to; `upToFailure`: calls up to the first that fails.
* **`configure_rendered`**: the calls that are made with what was written for extensions.
-/

set_option autoImplicit false

namespace Soketto.Handshake

open Text

/-- A call of `configure`: the place of the extension in the list, and the parameters. -/
structure Call where
  place : ℕ
  params : List Param
  deriving DecidableEq

variable {E : Type} [Extension E]

/-! ## Calls -/

/-- `configureFirst` with the calls that it makes. -/
def tracedFirst (offer : Offer) : List E → (Except BoxedError Unit × List E) × List Call
  | [] => ((.ok (), []), [])
  | e :: es =>
    if eqIgnoreAsciiCase (Extension.name e) offer.name then
      let (result, e) := Extension.configure e offer.params
      ((result, e :: es), [⟨0, offer.params⟩])
    else
      let ((result, es), calls) := tracedFirst offer es
      ((result, e :: es), calls.map fun c => { c with place := c.place + 1 })

/-- `configureOffers` with the calls that it makes. -/
def tracedOffers : List E → List Offer → (Except Error Unit × List E) × List Call
  | es, [] => ((.ok (), es), [])
  | es, offer :: offers =>
    match tracedFirst offer es with
    | ((.error x, es), calls) => ((.error (.extension x), es), calls)
    | ((.ok (), es), calls) =>
      let (result, calls') := tracedOffers es offers
      (result, calls ++ calls')

/-- `configureExtensions` with the calls that it makes. -/
def tracedExtensions (es : List E) (line : String) : (Except Error Unit × List E) × List Call :=
  tracedOffers es (parseOffers line)

theorem tracedFirst_fst (offer : Offer) (es : List E) :
    (tracedFirst offer es).1 = configureFirst offer es := by
  induction es with
  | nil => rfl
  | cons e es ih =>
    rw [tracedFirst, configureFirst, ← ih]
    split_ifs <;> rfl

/-- **The calls aside** it is the same. -/
theorem tracedOffers_fst (es : List E) (offers : List Offer) :
    (tracedOffers es offers).1 = configureOffers es offers := by
  induction offers generalizing es with
  | nil => rfl
  | cons offer offers ih =>
    rw [tracedOffers, configureOffers, ← tracedFirst_fst]
    rcases tracedFirst offer es with ⟨⟨_ | _, es₁⟩, calls⟩
    · rfl
    · exact ih es₁

/-- The call that an offer leads to: of the first extension with its name. -/
def firstCall (es : List E) (offer : Offer) : Option Call :=
  (es.findIdx? fun e => eqIgnoreAsciiCase (Extension.name e) offer.name).map fun i =>
    ⟨i, offer.params⟩

theorem tracedFirst_snd (offer : Offer) (es : List E) :
    (tracedFirst offer es).2 = (firstCall es offer).toList := by
  induction es with
  | nil => rfl
  | cons e es ih =>
    rw [tracedFirst, firstCall, List.findIdx?_cons]
    split_ifs with hname
    · rfl
    · dsimp only
      rw [ih, firstCall]
      cases es.findIdx? fun e => eqIgnoreAsciiCase (Extension.name e) offer.name <;> rfl

theorem configureFirst_eq (offer : Offer) (es : List E) :
    (firstCall es offer = none ∧ configureFirst offer es = (.ok (), es)) ∨
      ∃ i e, firstCall es offer = some ⟨i, offer.params⟩ ∧ es[i]? = some e ∧
        eqIgnoreAsciiCase (Extension.name e) offer.name = true ∧
        configureFirst offer es = ((Extension.configure e offer.params).1,
          es.set i (Extension.configure e offer.params).2) := by
  induction es with
  | nil => exact .inl ⟨rfl, rfl⟩
  | cons e es ih =>
    rw [firstCall, List.findIdx?_cons, configureFirst]
    split_ifs with hname
    · exact .inr ⟨0, e, rfl, rfl, hname, rfl⟩
    · rcases ih with ⟨hnone, hfirst⟩ | ⟨i, x, hcall, hx, hname', hfirst⟩
      · left
        rw [firstCall, Option.map_eq_none_iff] at hnone
        rw [hnone, hfirst]
        exact ⟨rfl, rfl⟩
      · right
        obtain ⟨j, hj, hij⟩ := Option.map_eq_some_iff.mp hcall
        cases hij
        rw [hj, hfirst]
        exact ⟨i + 1, x, rfl, hx, hname', rfl⟩

/-! ## Extensions with different names -/

/-- Whether the call succeeds on the extension in its place. -/
def Call.succeeds (es : List E) (c : Call) : Bool :=
  es[c.place]?.any fun e => (Extension.configure e c.params).1.isOk

/-- The calls up to the first one that fails. -/
def upToFailure (es : List E) : List Call → List Call
  | [] => []
  | c :: cs => c :: if c.succeeds es then upToFailure es cs else []

/-- Two names differ, also ignoring case. -/
def Differ (a b : String) : Prop := eqIgnoreAsciiCase a b = false

omit [Extension E] in
theorem Differ.not_both {a b x : String} (h : Differ a b) (ha : eqIgnoreAsciiCase x a = true)
    (hb : eqIgnoreAsciiCase x b = true) : False := by
  unfold Differ at h
  simp only [eqIgnoreAsciiCase, beq_iff_eq, beq_eq_false_iff_ne] at h ha hb
  exact h (ha.symm.trans hb)

/-- The extensions have the names that they had, and those that are still to be configured are as they
were. -/
structure Untouched (es es' : List E) (offers : List Offer) : Prop where
  names : es'.map Extension.name = es.map Extension.name
  same : ∀ o ∈ offers, ∀ (i : ℕ) (e : E), es[i]? = some e → eqIgnoreAsciiCase (Extension.name e) o.name = true →
    es'[i]? = some e

theorem firstCall_congr {es es' : List E} (h : es'.map Extension.name = es.map Extension.name)
    (offer : Offer) : firstCall es' offer = firstCall es offer := by
  have hidx : ∀ xs : List E, (xs.findIdx? fun e => eqIgnoreAsciiCase (Extension.name e) offer.name) =
      (xs.map Extension.name).findIdx? fun n => eqIgnoreAsciiCase n offer.name := by
    intro xs
    rw [List.findIdx?_map]
    rfl
  rw [firstCall, firstCall, hidx, hidx, h]

theorem tracedOffers_cons_snd (es : List E) (offer : Offer) (offers : List Offer) :
    (tracedOffers es (offer :: offers)).2 = (firstCall es offer).toList ++
      if (configureFirst offer es).1.isOk then (tracedOffers (configureFirst offer es).2 offers).2
      else [] := by
  rw [tracedOffers, ← tracedFirst_fst, ← tracedFirst_snd]
  rcases tracedFirst offer es with ⟨⟨_ | _, es₁⟩, calls⟩
  · exact (List.append_nil _).symm
  · rfl

theorem Untouched.set {es es' : List E} {offer : Offer} {offers : List Offer} {i : ℕ} {e e' : E}
    (h : Untouched es es' (offer :: offers)) (he : es[i]? = some e)
    (hmatch : eqIgnoreAsciiCase (Extension.name e) offer.name = true)
    (hdiffer : ∀ o ∈ offers, Differ offer.name o.name) (hname : Extension.name e' = Extension.name e) :
    Untouched es (es'.set i e') offers where
  names := by
    have hi : es'[i]? = some e := h.same offer List.mem_cons_self i e he hmatch
    obtain ⟨hlt, rfl⟩ := List.getElem?_eq_some_iff.mp hi
    have hlt' : i < (es'.map Extension.name).length := by
      rw [List.length_map]
      exact hlt
    have hget : (es'.map Extension.name)[i] = Extension.name es'[i] := List.getElem_map _
    rw [List.map_set, hname, ← hget, List.set_getElem_self, h.names]
  same := by
    intro o ho j x hx hmatch'
    have hne : i ≠ j := by
      rintro rfl
      rw [he] at hx
      cases hx
      exact (hdiffer o ho).not_both hmatch hmatch'
    rw [List.getElem?_set_ne hne]
    exact h.same o (List.mem_cons_of_mem _ ho) j x hx hmatch'

/-- **The calls**, when the offers have different names and no extension changes its own. -/
theorem tracedOffers_snd {es es' : List E} {offers : List Offer}
    (hname : ∀ e ∈ es, ∀ ps, Extension.name (Extension.configure e ps).2 = Extension.name e)
    (hoffers : offers.Pairwise fun a b => Differ a.name b.name) (h : Untouched es es' offers) :
    (tracedOffers es' offers).2 = upToFailure es (offers.filterMap (firstCall es)) := by
  induction offers generalizing es' with
  | nil => rfl
  | cons offer offers ih =>
    obtain ⟨hdiffer, hoffers⟩ := List.pairwise_cons.mp hoffers
    have hcall := firstCall_congr h.names offer
    rw [tracedOffers_cons_snd, hcall]
    rcases configureFirst_eq offer es with ⟨hnone, -⟩ | ⟨i, e, hsome, he, hmatch, -⟩
    · have hfirst : configureFirst offer es' = (.ok (), es') := by
        rcases configureFirst_eq offer es' with ⟨-, hfirst⟩ | ⟨i, e, hsome, -⟩
        · exact hfirst
        · rw [hcall, hnone] at hsome
          cases hsome
      rw [hfirst, List.filterMap_cons_none hnone, hnone]
      exact ih hoffers ⟨h.names, fun o ho => h.same o (List.mem_cons_of_mem _ ho)⟩
    · have hi : es'[i]? = some e := h.same offer List.mem_cons_self i e he hmatch
      have hfirst : configureFirst offer es' = ((Extension.configure e offer.params).1,
          es'.set i (Extension.configure e offer.params).2) := by
        rcases configureFirst_eq offer es' with ⟨hnone, -⟩ | ⟨j, x, hsome', hx, -, hfirst⟩
        · rw [hcall, hsome] at hnone
          cases hnone
        · rw [hcall, hsome] at hsome'
          cases hsome'
          rw [hi] at hx
          cases hx
          exact hfirst
      have hsucceeds : Call.succeeds es ⟨i, offer.params⟩ =
          (Extension.configure e offer.params).1.isOk := by
        rw [Call.succeeds, he]
        rfl
      rw [hfirst, List.filterMap_cons_some hsome, hsome, upToFailure, hsucceeds]
      have hset := h.set he hmatch hdiffer (hname e (List.mem_of_getElem? he) offer.params)
      rw [← ih hoffers hset]
      rfl

/-! ## Reading what was written -/

/-- The names and parameters can be written so that they are read back, and no name is that of another
extension. -/
structure Renderable (es : List E) : Prop where
  names : ∀ e ∈ es, Extension.name e ≠ "" ∧ IsPlain (Extension.name e).toList
  params : ∀ e ∈ es, ∀ p ∈ Extension.params e,
    IsPlain p.name.toList ∧ ∀ v ∈ p.value, IsPlain v.toList
  distinct : es.Pairwise fun a b => Differ (Extension.name a) (Extension.name b)

omit [Extension E] in
theorem eq_empty_of_eqIgnoreAsciiCase {s : String} (h : eqIgnoreAsciiCase s "" = true) : s = "" := by
  rw [eqIgnoreAsciiCase, beq_iff_eq] at h
  exact String.toList_eq_nil_iff.mp (List.map_eq_nil_iff.mp h)

/-- The offer that is written for an extension. -/
def offerOf (e : E) : Offer := ⟨Extension.name e, Extension.params e⟩

theorem parseOffers_of_renderable {es : List E} (h : Renderable es) (hne : es ≠ []) :
    parseOffers (offerLine es) = es.map offerOf := by
  have hcomma : ∀ e ∈ es, ',' ∉ extensionText e := by
    intro e he
    refine comma_not_mem_extensionText (h.names e he).2.comma fun p hp => ?_
    obtain ⟨hn, hv⟩ := h.params e he p hp
    exact ⟨hn.comma, fun v hv' => (hv v hv').comma⟩
  rw [parseOffers_offerLine hne hcomma]
  exact List.map_congr_left fun e he => parseOffer_extensionText (h.names e he).2 (h.params e he)

/-- **Reading what was written**: in the order in which the extensions were written, the first
extension of each name is configured once with the parameters that were written, and no other is, up
to the first failure. -/
theorem configure_rendered {T : Type} [Extension T] {es : List E} {ts : List T} (h : Renderable es)
    (hnil : es = [] → ∀ t ∈ ts, Extension.name t ≠ "")
    (hname : ∀ t ∈ ts, ∀ ps, Extension.name (Extension.configure t ps).2 = Extension.name t) :
    ∃ line, fromUtf8 (appendExtensionHeaderValue es) = some line ∧
      (tracedExtensions ts line).1 = configureExtensions ts line ∧
      (tracedExtensions ts line).2 =
        upToFailure ts (es.filterMap fun e => firstCall ts (offerOf e)) := by
  refine ⟨offerLine es, by rw [utf8_offerLine, fromUtf8_utf8], tracedOffers_fst _ _, ?_⟩
  by_cases hne : es = []
  · subst hne
    have hnone : firstCall ts ⟨"", []⟩ = none := by
      rw [firstCall, Option.map_eq_none_iff, List.findIdx?_eq_none_iff]
      intro t ht
      rw [← Bool.not_eq_true]
      exact fun hempty => hnil rfl t ht (eq_empty_of_eqIgnoreAsciiCase hempty)
    have hoffers : parseOffers (offerLine ([] : List E)) = [⟨"", []⟩] :=
      show parseOffers "" = [⟨"", []⟩] by decide
    rw [tracedExtensions, hoffers,
      tracedOffers_snd hname (List.pairwise_singleton _ _) ⟨rfl, fun _ _ _ _ he _ => he⟩,
      List.filterMap_cons_none hnone]
    rfl
  · have hoffers : (es.map offerOf).Pairwise fun a b => Differ a.name b.name :=
      List.pairwise_map.mpr h.distinct
    rw [tracedExtensions, parseOffers_of_renderable h hne,
      tracedOffers_snd hname hoffers ⟨rfl, fun _ _ _ _ he _ => he⟩, List.filterMap_map]
    rfl

/-! ## Extensions that fail or change their names -/

/-- An extension that has another name after it was configured, or fails. -/
structure Fickle where
  name : String
  params : List Param
  next : Option String

instance : Extension Fickle where
  isEnabled _ := true
  name := Fickle.name
  params := Fickle.params
  configure x _ :=
    match x.next with
    | none => (.error ⟨"declined"⟩, x)
    | some name => (.ok (), { x with name })
  encode x header data := some ⟨.ok (), x, header, data⟩
  decode x header data := ⟨.ok (), x, header, data⟩

/-- An extension that keeps its name. -/
def steady (name : String) (params : List Param) : Fickle := ⟨name, params, some name⟩

/-- Two extensions, with a parameter that has an empty value and one that has none. -/
def levelTrace : List Fickle :=
  [steady "x-level" [⟨"level", some "1"⟩, ⟨"max", some ""⟩], steady "X-Trace" [⟨"all", none⟩]]

theorem renderable_levelTrace : Renderable levelTrace where
  names := by
    intro e he
    simp only [levelTrace, List.mem_cons, List.not_mem_nil, or_false] at he
    rcases he with rfl | rfl
    · exact ⟨by decide, (show IsToken "x-level" by decide).isPlain⟩
    · exact ⟨by decide, (show IsToken "X-Trace" by decide).isPlain⟩
  params := by
    intro e he
    simp only [levelTrace, List.mem_cons, List.not_mem_nil, or_false] at he
    rcases he with rfl | rfl
    · intro p hp
      simp only [steady, Extension.params, List.mem_cons, List.not_mem_nil, or_false] at hp
      rcases hp with rfl | rfl
      · refine ⟨(show IsToken "level" by decide).isPlain, fun v hv => ?_⟩
        cases hv
        exact (show IsToken "1" by decide).isPlain
      · refine ⟨(show IsToken "max" by decide).isPlain, fun v hv => ?_⟩
        cases hv
        exact ⟨by decide, by decide, by decide, by decide, by decide⟩
    · intro p hp
      obtain rfl := List.mem_singleton.mp hp
      exact ⟨(show IsToken "all" by decide).isPlain, fun v hv => absurd hv (Option.not_mem_none v)⟩
  distinct := by
    unfold levelTrace Differ
    decide

/-- The parameters reach the extension of the name, also in another place. -/
theorem configure_rendered_levelTrace :
    ∃ line, fromUtf8 (appendExtensionHeaderValue levelTrace) = some line ∧
      (tracedExtensions [steady "x-trace" [], steady "x-level" []] line).1 =
        configureExtensions [steady "x-trace" [], steady "x-level" []] line ∧
      (tracedExtensions [steady "x-trace" [], steady "x-level" []] line).2 =
        [⟨1, [⟨"level", some "1"⟩, ⟨"max", some ""⟩]⟩, ⟨0, [⟨"all", none⟩]⟩] := by
  have hname : ∀ t ∈ [steady "x-trace" [], steady "x-level" []], ∀ ps,
      Extension.name (Extension.configure t ps).2 = Extension.name t := by
    intro t ht ps
    simp only [List.mem_cons, List.not_mem_nil, or_false] at ht
    rcases ht with rfl | rfl <;> rfl
  obtain ⟨line, hline, hsame, hcalls⟩ := configure_rendered renderable_levelTrace
    (fun h => absurd h (List.cons_ne_nil _ _)) hname
  exact ⟨line, hline, hsame, hcalls.trans (by decide)⟩

/-- A call on each extension that has the name of one that was written. -/
def everyCall (ts es : List Fickle) : List Call :=
  es.flatMap fun e =>
    (ts.zipIdx.filter fun x => eqIgnoreAsciiCase x.1.name e.name).map fun x => ⟨x.2, e.params⟩

/-- Not every extension is configured with what was written for its name: not after a failure, not if
another one before it has the name, at first or by then. And an extension without a name is configured
when nothing was written. -/
theorem not_everyCall :
    let ts := [⟨"x-level", [], none⟩, steady "x-trace" []]
    let us := [steady "x-level" [], steady "x-trace" [], steady "x-trace" []]
    let vs := [⟨"x-level", [], some "x-trace"⟩, steady "x-trace" []]
    let ws := [steady "" []]
    ∃ line, fromUtf8 (appendExtensionHeaderValue levelTrace) = some line ∧ Renderable levelTrace ∧
      (tracedExtensions ts line).2 ≠ everyCall ts levelTrace ∧
      (tracedExtensions us line).2 ≠ everyCall us levelTrace ∧
      (tracedExtensions vs line).2 ≠ everyCall vs levelTrace ∧
      fromUtf8 (appendExtensionHeaderValue ([] : List Fickle)) = some "" ∧
      (tracedExtensions ws "").2 ≠ everyCall ws [] :=
  ⟨offerLine levelTrace, by rw [utf8_offerLine, fromUtf8_utf8], renderable_levelTrace, by decide,
    by decide, by decide, fromUtf8_utf8 "", by decide⟩

end Soketto.Handshake
