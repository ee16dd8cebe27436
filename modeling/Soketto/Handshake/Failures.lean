import Soketto.Handshake

/-!
# How looking through headers fails

Clients and servers look through headers with the same functions.

* **`expectAsciiHeader_cases`**: how looking for a token ends.
* `FailsWith p r`: the error of `r`, if there is one, is one of `p`; **`FailsWith.bind`**.
* `CoversHeaders p`: the errors of these functions are among `p`; `failsWith_expectAsciiHeader`,
  `failsWith_withFirstHeader`, **`failsWith_configureHeaders`**.
-/

set_option autoImplicit false

namespace Soketto.Handshake

open Text

/-! ## Tokens -/

section Tokens

variable {ours : String}

theorem expectStep_cases (r : Except Error State) (h : Http.Header) :
    (r = .ok .found ∧ expectStep ours r h = r) ∨ expectStep ours r h = .error (.utf8 h.value) ∨
      expectStep ours r h = .ok .found ∨ expectStep ours r h = .ok .name := by
  unfold expectStep
  split_ifs with hr
  · exact .inl ⟨hr, rfl⟩
  · right
    rcases fromUtf8 h.value with _ | text
    · exact .inl rfl
    · dsimp only
      split_ifs
      · exact .inr (.inl rfl)
      · exact .inr (.inr rfl)

theorem foldl_expectStep_cases (headers : List Http.Header) (r : Except Error State) :
    (headers = [] ∧ headers.foldl (expectStep ours) r = r) ∨
      (∃ v, headers.foldl (expectStep ours) r = .error (.utf8 v)) ∨
      headers.foldl (expectStep ours) r = .ok .found ∨
      headers.foldl (expectStep ours) r = .ok .name := by
  induction headers generalizing r with
  | nil => exact .inl ⟨rfl, rfl⟩
  | cons h headers ih =>
    right
    rw [List.foldl_cons]
    rcases ih (expectStep ours r h) with ⟨-, hfold⟩ | hfold
    · rw [hfold]
      rcases expectStep_cases r h with ⟨hr, hstep⟩ | hstep | hstep | hstep
      · exact .inr (.inl (hstep.trans hr))
      · exact .inl ⟨_, hstep⟩
      · exact .inr (.inl hstep)
      · exact .inr (.inr hstep)
    · exact hfold

/-- **How the search ends.** -/
theorem expectAsciiHeader_cases (headers : List Http.Header) (name ours : String) :
    ((∀ h ∈ headers, eqIgnoreAsciiCase h.name name = false) ∧
        expectAsciiHeader headers name ours = .error (.headerNotFound name)) ∨
      (∃ h ∈ headers, eqIgnoreAsciiCase h.name name = true) ∧
        ((∃ v, expectAsciiHeader headers name ours = .error (.utf8 v)) ∨
          expectAsciiHeader headers name ours = .ok () ∨
          expectAsciiHeader headers name ours = .error (.unexpectedHeader name)) := by
  have hnil : (headers.filter fun h => eqIgnoreAsciiCase h.name name) = [] ↔
      ∀ h ∈ headers, eqIgnoreAsciiCase h.name name = false := by
    simp [List.filter_eq_nil_iff]
  unfold expectAsciiHeader
  by_cases hempty : (headers.filter fun h => eqIgnoreAsciiCase h.name name) = []
  · left
    rw [hempty]
    exact ⟨hnil.mp hempty, rfl⟩
  · right
    refine ⟨?_, ?_⟩
    · by_contra hno
      refine hempty (hnil.mpr fun h hh => ?_)
      by_contra hname
      exact hno ⟨h, hh, by simpa using hname⟩
    · rcases foldl_expectStep_cases (headers.filter fun h => eqIgnoreAsciiCase h.name name)
        (.ok .init) with ⟨hfilter, -⟩ | ⟨v, hfold⟩ | hfold | hfold
      · exact absurd hfilter hempty
      · rw [hfold]
        exact .inl ⟨v, rfl⟩
      · rw [hfold]
        exact .inr (.inl rfl)
      · rw [hfold]
        exact .inr (.inr rfl)

end Tokens

/-! ## Errors -/

/-- The error, if there is one, is one of these. -/
def FailsWith {α : Type} (p : Error → Prop) (r : Except Error α) : Prop := ∀ e, r = .error e → p e

/-- The errors of the functions that look through headers are among these. -/
structure CoversHeaders (p : Error → Prop) : Prop where
  utf8 : ∀ bs, p (.utf8 bs)
  headerNotFound : ∀ name, p (.headerNotFound name)
  unexpectedHeader : ∀ name, p (.unexpectedHeader name)
  extension : ∀ e, p (.extension e)

section FailsWith

variable {α β : Type} {p : Error → Prop}

theorem failsWith_ok (a : α) : FailsWith p (.ok a) := by
  intro e h
  cases h

theorem failsWith_error {e : Error} (he : p e) : FailsWith p (.error e : Except Error α) := by
  intro e' h
  cases h
  exact he

theorem FailsWith.pass {r : Except Error α} {e : Error} (hr : FailsWith p r) (h : r = .error e) :
    FailsWith p (.error e : Except Error β) := failsWith_error (hr e h)

/-- **One computation after another** fails as either does. -/
theorem FailsWith.bind {x : Except Error α} {f : α → Except Error β} (hx : FailsWith p x)
    (hf : ∀ a, FailsWith p (f a)) : FailsWith p (x >>= f) := by
  cases x with
  | error e => exact failsWith_error (hx e rfl)
  | ok a => exact hf a

theorem FailsWith.map {x : Except Error α} (hx : FailsWith p x) (f : α → β) :
    FailsWith p (x.map f) := by
  cases x with
  | error e => exact failsWith_error (hx e rfl)
  | ok a => exact failsWith_ok _

theorem failsWith_expectAsciiHeader (hp : CoversHeaders p) (headers : List Http.Header)
    (name ours : String) : FailsWith p (expectAsciiHeader headers name ours) := by
  rcases expectAsciiHeader_cases headers name ours with ⟨-, h⟩ | ⟨-, ⟨v, h⟩ | h | h⟩ <;> rw [h]
  · exact failsWith_error (hp.headerNotFound name)
  · exact failsWith_error (hp.utf8 v)
  · exact failsWith_ok ()
  · exact failsWith_error (hp.unexpectedHeader name)

theorem failsWith_withFirstHeader (hp : CoversHeaders p) {headers : List Http.Header} {name : String}
    {f : List UInt8 → Except Error α} (hf : ∀ v, FailsWith p (f v)) :
    FailsWith p (withFirstHeader headers name f) := by
  unfold withFirstHeader
  split
  · exact hf _
  · exact failsWith_error (hp.headerNotFound name)

variable {E : Type} [Extension E]

theorem failsWith_configureOffers (hp : CoversHeaders p) (es : List E) (offers : List Offer) :
    FailsWith p (configureOffers es offers).1 := by
  induction offers generalizing es with
  | nil => exact failsWith_ok ()
  | cons o offers ih =>
    rw [configureOffers]
    split
    · exact failsWith_error (hp.extension _)
    · exact ih _

/-- **Configuring extensions**, for a request or for a response. -/
theorem failsWith_configureHeaders (hp : CoversHeaders p) (es : List E) (headers : List Http.Header) :
    FailsWith p (configureHeaders es headers).1 := by
  induction headers generalizing es with
  | nil => exact failsWith_ok ()
  | cons h headers ih =>
    rw [configureHeaders]
    split_ifs
    · split
      · exact failsWith_error (hp.utf8 _)
      · next line _ =>
        have hoffers := failsWith_configureOffers hp es (parseOffers line)
        rw [configureExtensions]
        split
        · next heq => exact heq ▸ hoffers
        · exact ih _
    · exact ih _

end FailsWith

end Soketto.Handshake
