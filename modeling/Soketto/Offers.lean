import Soketto.Extension.Deflate
import Soketto.Handshake

/-!
# Several offers of permessage-deflate

A client may offer permessage-deflate more than once, as a list of fallbacks. The server is
configured with each of the offers in turn.

* `Deflate.offered`: the extension of a fresh server that gets one offer; `Deflate.negotiated` that
  of a server that gets several.
* `Deflate.walkParams_keeps`, `Deflate.serverParam_cases`: walks over parameters, and what one of them
  does to a server.
* `Deflate.negotiated_spec`: what is left of the offers.
* **`one_offer_iff`**: one acceptable offer decides the outcome if and only if the last offer is
  answered like the last acceptable one, and no window is left over from an offer before.
-/

set_option autoImplicit false

namespace Soketto

open Handshake Text

namespace Deflate

variable {F : Flate}

/-- A fresh server after one offer. -/
def offered (F : Flate) (o : List Param) : Deflate F := ((Deflate.new .server).configure o).2

/-- A fresh server after some offers. -/
def negotiated (F : Flate) (os : List (List Param)) : Deflate F :=
  os.foldl (fun d o => (d.configure o).2) (Deflate.new .server)

/-- A fresh server accepts the offer. -/
def acceptable (F : Flate) (o : List Param) : Bool := (offered F o).enabled

/-- The answer of a fresh server to the offer, as far as it reads it. -/
def answer (F : Flate) (o : List Param) : List Param := (offered F o).params

/-- The window of a fresh server after the offer. -/
def window (F : Flate) (o : List Param) : UInt8 := (offered F o).ourMaxWindowBits

/-- An answer limits the window. -/
def limits (ps : List Param) : Bool := ps.any (·.name = serverMaxWindowBits)

/-- The window after some offers: that of the last one whose answer limits it. -/
def lastWindow (F : Flate) (os : List (List Param)) : UInt8 :=
  os.foldl (fun w o => if limits (answer F o) then window F o else w) 15

/-- The window an answer speaks of. -/
def windowOf (ps : List Param) : UInt8 :=
  ps.foldl (fun w p => if p.name = serverMaxWindowBits then (p.value.bind parseU8).getD w else w) 15

/-! ## Walks over parameters -/

theorem walkParams_keeps {step : Deflate F → Param → Deflate F × Bool} {P : Deflate F → Prop}
    (hstep : ∀ d p, P d → P (step d p).1) {d : Deflate F} (hd : P d) (ps : List Param) :
    P (walkParams step d ps).1 := by
  induction ps generalizing d with
  | nil => exact hd
  | cons p ps ih =>
    have hp := hstep d p hd
    rw [walkParams]
    rcases hs : step d p with ⟨d₁, _ | _⟩ <;> rw [hs] at hp
    · exact hp
    · exact ih hp

theorem walkParams_cons_true {step : Deflate F → Param → Deflate F × Bool} {d : Deflate F}
    {p : Param} {ps : List Param} :
    (walkParams step d (p :: ps)).2 = true ↔
      (step d p).2 = true ∧ (walkParams step (step d p).1 ps).2 = true := by
  rw [walkParams]
  rcases step d p with ⟨d₁, _ | _⟩
  · simp
  · simp

theorem walkParams_cons {step : Deflate F → Param → Deflate F × Bool} {d : Deflate F} {p : Param}
    (h : (step d p).2 = true) (ps : List Param) :
    walkParams step d (p :: ps) = walkParams step (step d p).1 ps := by
  rw [walkParams]
  rcases hs : step d p with ⟨d₁, _ | _⟩
  · rw [hs] at h
    cases h
  · rfl

theorem setTheirMaxWindowBits_spec {d d' : Deflate F} {p : Param} {expected : Option UInt8}
    (h : d.setTheirMaxWindowBits p expected = some d') :
    (p.value.bind parseU8 = none ∧ d' = d) ∨
      ∃ v, p.value.bind parseU8 = some v ∧ 8 ≤ v ∧ v ≤ 15 ∧ (∀ x ∈ expected, v ≤ x) ∧
        d' = { d with theirMaxWindowBits := max 9 v } := by
  unfold setTheirMaxWindowBits at h
  rcases hv : p.value.bind parseU8 with _ | v <;> rw [hv] at h <;> dsimp only at h
  · cases h
    exact Or.inl ⟨rfl, rfl⟩
  · split_ifs at h with hr hx
    cases h
    rw [not_or, UInt8.not_lt, UInt8.not_lt] at hr
    refine Or.inr ⟨v, rfl, hr.1, hr.2, fun x hmem => ?_, rfl⟩
    rw [Option.mem_def.mp hmem] at hx
    simpa using hx

/-- **What a parameter of an offer does** to a server: it ends the walk, lowers the window of the
client, or is answered by a parameter of the same name. -/
theorem serverParam_cases (d : Deflate F) (p : Param) :
    d.serverParam p = (d, false) ∨
      (p.name = clientMaxWindowBits ∧
        ∃ b, (b = d.theirMaxWindowBits ∨ ∃ v : UInt8, v ≤ 15 ∧ b = max 9 v) ∧
          d.serverParam p = ({ d with theirMaxWindowBits := b }, true)) ∨
      (p.name = serverMaxWindowBits ∧ ∃ v, p.value.bind parseU8 = some v ∧ ¬(v < 9 ∨ 15 < v) ∧
        d.serverParam p = ({ d with
          params := d.params ++ [windowParam serverMaxWindowBits v]
          ourMaxWindowBits := v }, true)) ∨
      (p.name = clientNoContextTakeover ∨ p.name = serverNoContextTakeover) ∧
        d.serverParam p = ({ d with params := d.params ++ [.new p.name] }, true) := by
  unfold serverParam
  split_ifs with h₁ h₂ h₃ h₄
  · rcases hs : d.setTheirMaxWindowBits p none with _ | d'
    · exact Or.inl rfl
    · rcases setTheirMaxWindowBits_spec hs with ⟨-, rfl⟩ | ⟨v, -, -, hv, -, rfl⟩
      · exact Or.inr (Or.inl ⟨h₁, _, Or.inl rfl, rfl⟩)
      · exact Or.inr (Or.inl ⟨h₁, _, Or.inr ⟨v, hv, rfl⟩, rfl⟩)
  · rcases hv : p.value.bind parseU8 with _ | v
    · exact Or.inl rfl
    · dsimp only
      split_ifs with hr
      · exact Or.inl rfl
      · exact Or.inr (Or.inr (Or.inl ⟨h₂, v, rfl, hr, rfl⟩))
  · exact Or.inr (Or.inr (Or.inr ⟨Or.inl h₃, by rw [h₃]⟩))
  · exact Or.inr (Or.inr (Or.inr ⟨Or.inr h₄, by rw [h₄]⟩))
  · exact Or.inl rfl

/-! ## One offer -/

theorem window_cases {v : UInt8} (h : ¬(v < 9 ∨ 15 < v)) :
    v = 9 ∨ v = 10 ∨ v = 11 ∨ v = 12 ∨ v = 13 ∨ v = 14 ∨ v = 15 := by
  rw [not_or, UInt8.lt_iff_toNat_lt, UInt8.lt_iff_toNat_lt] at h
  simp only [← UInt8.toNat_inj]
  have h₉ : (9 : UInt8).toNat = 9 := rfl
  have h₁₅ : (15 : UInt8).toNat = 15 := rfl
  have h₁ : (10 : UInt8).toNat = 10 ∧ (11 : UInt8).toNat = 11 ∧ (12 : UInt8).toNat = 12 ∧
    (13 : UInt8).toNat = 13 ∧ (14 : UInt8).toNat = 14 := by decide
  omega

theorem parseU8_toString {v : UInt8} (h : ¬(v < 9 ∨ 15 < v)) : parseU8 (toString v.toNat) = some v := by
  rcases window_cases h with rfl | rfl | rfl | rfl | rfl | rfl | rfl <;> decide

theorem setTheirMaxWindowBits_cases (F : Flate) (p : Param) :
    (∀ d : Deflate F, d.setTheirMaxWindowBits p none = none) ∨
      ∃ g : UInt8 → UInt8, ∀ d : Deflate F, d.setTheirMaxWindowBits p none =
        some { d with theirMaxWindowBits := g d.theirMaxWindowBits } := by
  rcases hv : p.value.bind parseU8 with _ | v
  · exact Or.inr ⟨id, fun d => by simp [setTheirMaxWindowBits, hv]⟩
  · by_cases hr : v < 8 ∨ 15 < v
    · exact Or.inl fun d => by simp [setTheirMaxWindowBits, hv, hr]
    · exact Or.inr ⟨fun _ => max 9 v, fun d => by simp [setTheirMaxWindowBits, hv, hr]⟩

/-- Two servers that read the same offer: the first had the window `w` before it, the second is
fresh. -/
structure SameOffer (w : UInt8) (d d' : Deflate F) : Prop where
  params : d.params = d'.params
  window : d.ourMaxWindowBits = if limits d'.params then d'.ourMaxWindowBits else w
  fresh : d'.ourMaxWindowBits = windowOf d'.params

theorem windowOf_append (ps : List Param) (p : Param) :
    windowOf (ps ++ [p]) = if p.name = serverMaxWindowBits then (p.value.bind parseU8).getD (windowOf ps)
      else windowOf ps := by
  simp [windowOf, List.foldl_append]

section

variable {w : UInt8} {d d' : Deflate F}

theorem SameOffer.push (h : SameOffer w d d') {p : Param} (hp : p.name ≠ serverMaxWindowBits) :
    SameOffer (F := F) w { d with params := d.params ++ [p] }
      { d' with params := d'.params ++ [p] } where
  params := by simp [h.params]
  window := by
    have hl : limits (d'.params ++ [p]) = limits d'.params := by
      simp [limits, hp]
    simpa [hl] using h.window
  fresh := by simpa [windowOf_append, hp] using h.fresh

/-- One parameter is read alike by both servers. -/
theorem SameOffer.serverParam (h : SameOffer w d d') (p : Param) :
    SameOffer w (d.serverParam p).1 (d'.serverParam p).1 ∧
      (d.serverParam p).2 = (d'.serverParam p).2 := by
  unfold Deflate.serverParam
  split_ifs with h₁ h₂ h₃ h₄
  · rcases setTheirMaxWindowBits_cases F p with hno | ⟨g, hg⟩
    · rw [hno, hno]
      exact ⟨h, rfl⟩
    · rw [hg, hg]
      exact ⟨⟨h.params, h.window, h.fresh⟩, rfl⟩
  · rcases hv : p.value.bind parseU8 with _ | v <;> dsimp only
    · exact ⟨h, rfl⟩
    · split_ifs with hr
      · exact ⟨h, rfl⟩
      · refine ⟨⟨?_, ?_, ?_⟩, rfl⟩
        · simp [h.params]
        · simp [limits, windowParam, Param.new, Param.setValue]
        · simp only [windowOf_append, windowParam, Param.new, Param.setValue, if_true,
            Option.bind_some, parseU8_toString hr, Option.getD_some]
  · exact ⟨h.push (by decide), rfl⟩
  · exact ⟨h.push (by decide), rfl⟩
  · exact ⟨h, rfl⟩

theorem SameOffer.walkParams (h : SameOffer w d d') (ps : List Param) :
    SameOffer w (walkParams Deflate.serverParam d ps).1 (walkParams Deflate.serverParam d' ps).1 ∧
      (Deflate.walkParams Deflate.serverParam d ps).2 =
        (Deflate.walkParams Deflate.serverParam d' ps).2 := by
  induction ps generalizing d d' with
  | nil => exact ⟨h, rfl⟩
  | cons p ps ih =>
    obtain ⟨hs, hb⟩ := h.serverParam p
    rw [Deflate.walkParams, Deflate.walkParams]
    rcases hd : d.serverParam p with ⟨d₁, b⟩
    rcases hd' : d'.serverParam p with ⟨d₁', b'⟩
    rw [hd, hd'] at hs hb
    obtain rfl : b = b' := hb
    cases b with
    | false => exact ⟨hs, rfl⟩
    | true => exact ih hs

end

theorem walkParams_frame (d : Deflate F) (ps : List Param) :
    (walkParams serverParam d ps).1.mode = d.mode ∧
      (walkParams serverParam d ps).1.enabled = d.enabled := by
  refine walkParams_keeps (P := fun d' => d'.mode = d.mode ∧ d'.enabled = d.enabled)
    (fun d' p h => ?_) ⟨rfl, rfl⟩ ps
  rcases serverParam_cases d' p with hs | ⟨-, b, -, hs⟩ | ⟨-, v, -, -, hs⟩ | ⟨-, hs⟩
  · rw [hs]
    exact h
  · rw [hs]
    exact h
  · rw [hs]
    exact h
  · rw [hs]
    exact h

/-- The extension with no answer yet. -/
def cleared (d : Deflate F) : Deflate F := { d with params := [] }

theorem configure_server {d : Deflate F} (hm : d.mode = .server) (o : List Param) :
    d.configure o = (.ok (), { (walkParams serverParam d.cleared o).1 with
      enabled := d.enabled || (walkParams serverParam d.cleared o).2 }) := by
  obtain ⟨-, hen⟩ := walkParams_frame d.cleared o
  rcases hw : walkParams serverParam d.cleared o with ⟨d₁, b⟩
  rw [hw] at hen
  have hwalk : walkParams serverParam { d with params := [] } o = (d₁, b) := hw
  unfold configure
  split
  · rw [hwalk]
    cases b with
    | false => simp [show d.enabled = d₁.enabled from hen.symm]
    | true => simp
  · next hc =>
    rw [hm] at hc
    cases hc

theorem sameOffer_new (d : Deflate F) :
    SameOffer d.ourMaxWindowBits d.cleared (Deflate.new .server : Deflate F).cleared :=
  ⟨rfl, rfl, rfl⟩

/-- **What an offer does to a server.** -/
theorem configure_offer {d : Deflate F} (hm : d.mode = .server) (o : List Param) :
    (d.configure o).1 = .ok () ∧ (d.configure o).2.mode = .server ∧
      (d.configure o).2.params = answer F o ∧
      (d.configure o).2.enabled = (d.enabled || acceptable F o) ∧
      (d.configure o).2.ourMaxWindowBits =
        if limits (answer F o) then window F o else d.ourMaxWindowBits := by
  obtain ⟨hs, hb⟩ := (sameOffer_new d).walkParams o
  obtain ⟨hmode, -⟩ := walkParams_frame d.cleared o
  have hnew := configure_server (d := (Deflate.new .server : Deflate F)) rfl o
  simp only [answer, acceptable, window, offered, hnew, configure_server hm]
  exact ⟨trivial, hmode.trans hm, hs.params, by rw [hb]; rfl, hs.window⟩

theorem window_eq (o : List Param) : window F o = windowOf (answer F o) := by
  have hnew := configure_server (d := (Deflate.new .server : Deflate F)) rfl o
  simp only [window, answer, offered, hnew]
  exact ((sameOffer_new (Deflate.new .server)).walkParams o).1.fresh

theorem window_of_not_limits {o : List Param} (h : limits (answer F o) = false) :
    window F o = 15 := by
  rw [window_eq]
  generalize answer F o = ps at h
  have hfold : ∀ (ps : List Param) (w : UInt8), limits ps = false → ps.foldl (fun w p =>
      if p.name = serverMaxWindowBits then (p.value.bind parseU8).getD w else w) w = w := by
    intro ps
    induction ps with
    | nil => exact fun _ _ => rfl
    | cons p ps ih =>
      intro w hl
      simp only [limits, List.any_cons, Bool.or_eq_false_iff, decide_eq_false_iff_not] at hl
      rw [List.foldl_cons, if_neg hl.1]
      exact ih w hl.2
  exact hfold ps 15 h

/-! ## Several offers -/

theorem foldl_configure {d : Deflate F} (hm : d.mode = .server) (os : List (List Param)) :
    let d' := os.foldl (fun d o => (d.configure o).2) d
    d'.mode = .server ∧ d'.enabled = (d.enabled || os.any (acceptable F)) ∧
      d'.params = (os.getLast?.elim d.params (answer F)) ∧
      d'.ourMaxWindowBits =
        os.foldl (fun w o => if limits (answer F o) then window F o else w) d.ourMaxWindowBits := by
  induction os using List.reverseRecOn with
  | nil => simp [hm]
  | append_singleton os o ih =>
    obtain ⟨hm', he, hp, hw⟩ := ih
    obtain ⟨-, hm₁, hp₁, he₁, hw₁⟩ := configure_offer hm' o
    simp only [List.foldl_append, List.foldl_cons, List.foldl_nil]
    refine ⟨hm₁, ?_, ?_, ?_⟩
    · rw [he₁, he, List.any_append, Bool.or_assoc]
      simp
    · rw [hp₁]
      simp
    · rw [hw₁, hw]

/-- **What is left of several offers**: the answer to the last one, and the last window. -/
theorem negotiated_spec (os : List (List Param)) :
    (negotiated F os).enabled = os.any (acceptable F) ∧
      (negotiated F os).params = (os.getLast?.elim [] (answer F)) ∧
      (negotiated F os).ourMaxWindowBits = lastWindow F os := by
  obtain ⟨-, he, hp, hw⟩ := foldl_configure (d := (Deflate.new .server : Deflate F)) rfl os
  exact ⟨he, hp, hw⟩

/-- What a negotiation comes to: nothing, or the answer and the window of the server. -/
def outcome (d : Deflate F) : Option (List Param × UInt8) :=
  if d.enabled then some (d.params, d.ourMaxWindowBits) else none

/-- One acceptable offer decides what becomes of a server that got the offers. -/
structure OneOffer (os : List (List Param)) (d : Deflate F) : Prop where
  enabled : d.enabled = true ↔ ∃ o ∈ os, (offered F o).enabled = true
  one : d.enabled = true → ∃ o ∈ os, (offered F o).enabled = true ∧
    d.params = (offered F o).params ∧ d.ourMaxWindowBits = (offered F o).ourMaxWindowBits
  /-- The other offers have no effect. -/
  others : d.outcome = (negotiated F (os.filter (acceptable F))).outcome

/-- No offer is acceptable, or the last offer is answered like the last acceptable one and, if this
answer does not limit the window, no offer has left another limit. -/
def Consistent (F : Flate) (os : List (List Param)) : Prop :=
  (∀ o ∈ os, acceptable F o = false) ∨
    ∃ o, (os.filter (acceptable F)).getLast? = some o ∧
      os.getLast?.elim [] (answer F) = answer F o ∧
      (limits (answer F o) = true ∨
        lastWindow F os = 15 ∧ lastWindow F (os.filter (acceptable F)) = 15)

theorem lastWindow_of_limits {os : List (List Param)} {o : List Param} (h : os.getLast? = some o)
    (hl : limits (answer F o) = true) : lastWindow F os = window F o := by
  rw [List.getLast?_eq_some_iff] at h
  obtain ⟨pre, rfl⟩ := h
  simp [lastWindow, List.foldl_append, hl]

theorem lastWindow_of_answer {os : List (List Param)} {o : List Param}
    (h : os.getLast?.elim [] (answer F) = answer F o) (hl : limits (answer F o) = true) :
    lastWindow F os = window F o := by
  rcases hlast : os.getLast? with _ | l <;> rw [hlast] at h
  · rw [← h] at hl
    cases hl
  · have hlo : answer F l = answer F o := h
    rw [lastWindow_of_limits hlast (by rw [hlo]; exact hl), window_eq, window_eq, hlo]

section

variable {os : List (List Param)}

theorem oneOffer_of_not_acceptable (h : ∀ o ∈ os, acceptable F o = false) :
    OneOffer os (negotiated F os) := by
  obtain ⟨he, -, -⟩ := negotiated_spec (F := F) os
  have hno : os.any (acceptable F) = false := by simpa using h
  have hfilter : os.filter (acceptable F) = [] := by simpa using h
  rw [hno] at he
  refine ⟨?_, ?_, ?_⟩
  · rw [he]
    simp only [Bool.false_eq_true, false_iff, not_exists, not_and]
    intro o ho
    rw [show (offered F o).enabled = false from h o ho]
    exact Bool.false_ne_true
  · rw [he]
    exact fun h => nomatch h
  · rw [hfilter, outcome, he]
    rfl

/-- **Offers that are consistent**: the last acceptable one decides. -/
theorem oneOffer_of_acceptable {o : List Param} (ho : (os.filter (acceptable F)).getLast? = some o)
    (ha : os.getLast?.elim [] (answer F) = answer F o)
    (hw : limits (answer F o) = true ∨
      lastWindow F os = 15 ∧ lastWindow F (os.filter (acceptable F)) = 15) :
    OneOffer os (negotiated F os) := by
  obtain ⟨hmem, hacc⟩ := List.mem_filter.mp (List.mem_of_getLast? ho)
  obtain ⟨he, hp, hwin⟩ := negotiated_spec (F := F) os
  obtain ⟨he', hp', hwin'⟩ := negotiated_spec (F := F) (os.filter (acceptable F))
  have hany : os.any (acceptable F) = true := List.any_eq_true.mpr ⟨o, hmem, hacc⟩
  have hany' : (os.filter (acceptable F)).any (acceptable F) = true :=
    List.any_eq_true.mpr ⟨o, List.mem_of_getLast? ho, hacc⟩
  have ha' : (os.filter (acceptable F)).getLast?.elim [] (answer F) = answer F o := by rw [ho]; rfl
  -- both windows are that of the last acceptable offer
  have hwo : lastWindow F os = window F o ∧
      lastWindow F (os.filter (acceptable F)) = window F o := by
    by_cases hl : limits (answer F o) = true
    · exact ⟨lastWindow_of_answer ha hl, lastWindow_of_answer ha' hl⟩
    · rw [window_of_not_limits (by simpa using hl)]
      exact hw.resolve_left hl
  refine ⟨?_, fun _ => ⟨o, hmem, hacc, hp.trans ha, hwin.trans hwo.1⟩, ?_⟩
  · rw [he, hany]
    exact ⟨fun _ => ⟨o, hmem, hacc⟩, fun _ => rfl⟩
  · rw [outcome, outcome, he, he', hany, hany', hp, hp', ha, ha', hwin, hwin', hwo.1, hwo.2]

theorem Consistent.of_oneOffer (h : OneOffer os (negotiated F os)) : Consistent F os := by
  obtain ⟨he, hp, hwin⟩ := negotiated_spec (F := F) os
  obtain ⟨he', hp', hwin'⟩ := negotiated_spec (F := F) (os.filter (acceptable F))
  rcases hlast : (os.filter (acceptable F)).getLast? with _ | o
  · left
    simpa using List.getLast?_eq_none_iff.mp hlast
  · right
    obtain ⟨hmem, hacc⟩ := List.mem_filter.mp (List.mem_of_getLast? hlast)
    have hany : os.any (acceptable F) = true := List.any_eq_true.mpr ⟨o, hmem, hacc⟩
    have hany' : (os.filter (acceptable F)).any (acceptable F) = true :=
      List.any_eq_true.mpr ⟨o, List.mem_of_getLast? hlast, hacc⟩
    have hout := h.others
    rw [outcome, outcome, he, he', hany, hany', hp, hp', hwin, hwin', hlast] at hout
    simp only [if_true, Option.some.injEq, Prod.mk.injEq, Option.elim_some] at hout
    refine ⟨o, hlast, hout.1, ?_⟩
    by_cases hl : limits (answer F o) = true
    · exact Or.inl hl
    · right
      obtain ⟨o', -, -, hp₁, hw₁⟩ := h.one (by rw [he, hany])
      have ho' : answer F o' = answer F o := by
        rw [← hout.1, ← hp, hp₁]
        rfl
      have h₁₅ : window F o' = 15 := window_of_not_limits (by rw [ho']; simpa using hl)
      have hos : lastWindow F os = 15 := by
        rw [← hwin, hw₁]
        exact h₁₅
      exact ⟨hos, hout.2.symm.trans hos⟩

theorem oneOffer_iff (os : List (List Param)) : OneOffer os (negotiated F os) ↔ Consistent F os := by
  constructor
  · exact Consistent.of_oneOffer
  · rintro (h | ⟨o, ho, ha, hw⟩)
    · exact oneOffer_of_not_acceptable h
    · exact oneOffer_of_acceptable ho ha hw

end

end Deflate

/-! ## The headers of a request -/

/-- The offer is one of permessage-deflate. -/
def isDeflate (o : Offer) : Bool := eqIgnoreAsciiCase "permessage-deflate" o.name

/-- The parameter lists that are offered for permessage-deflate. -/
def deflateOffers (lines : List String) : List (List Param) :=
  ((lines.flatMap parseOffers).filter isDeflate).map Offer.params

/-- Headers with these values. -/
def extensionHeaders (lines : List String) : List Http.Header :=
  lines.map fun l => ⟨secWebSocketExtensions, utf8 l⟩

section

variable {F : Flate} {d : Deflate F}

theorem configureFirst_single (d : Deflate F) (o : Offer) :
    configureFirst o [d] =
      if isDeflate o then
        ((d.configure o.params).1, [(d.configure o.params).2])
      else (.ok (), [d]) := rfl

theorem configureOffers_single (hm : d.mode = .server) (offers : List Offer) :
    configureOffers [d] offers = (.ok (), [((offers.filter isDeflate).map Offer.params).foldl
      (fun d o => (d.configure o).2) d]) := by
  induction offers generalizing d with
  | nil => rfl
  | cons o offers ih =>
    rw [configureOffers, configureFirst_single]
    by_cases ho : isDeflate o = true
    · obtain ⟨hok, hm', -⟩ := Deflate.configure_offer hm o.params
      rw [if_pos ho, hok, List.filter_cons_of_pos ho]
      exact ih hm'
    · rw [if_neg ho, List.filter_cons_of_neg ho]
      exact ih hm

theorem configureHeaders_single (hm : d.mode = .server) (lines : List String) :
    configureHeaders [d] (extensionHeaders lines) = (.ok (), [(deflateOffers lines).foldl
      (fun d o => (d.configure o).2) d]) := by
  induction lines generalizing d with
  | nil => rfl
  | cons l lines ih =>
    have hname : eqIgnoreAsciiCase secWebSocketExtensions secWebSocketExtensions = true := by
      simp [eqIgnoreAsciiCase]
    have hsplit : deflateOffers (l :: lines) =
        ((parseOffers l).filter isDeflate).map Offer.params ++ deflateOffers lines := by
      simp [deflateOffers]
    rw [extensionHeaders, List.map_cons, configureHeaders, if_pos hname, fromUtf8_utf8]
    dsimp only
    rw [configureExtensions, configureOffers_single hm, hsplit, List.foldl_append]
    exact ih (Deflate.foldl_configure hm _).1

end

/-- **One accepted offer.** A fresh server gets headers with any values. One acceptable offer
decides what becomes of its extension, and the others have no effect, if and only if the last offer
is answered like the last acceptable one and no other window is left over. -/
theorem one_offer_iff (F : Flate) (lines : List String) :
    (∃ d : Deflate F,
      configureHeaders [Deflate.new .server] (extensionHeaders lines) = (.ok (), [d]) ∧
        Deflate.OneOffer (deflateOffers lines) d) ↔
      Deflate.Consistent F (deflateOffers lines) := by
  have hconf := configureHeaders_single (d := (Deflate.new .server : Deflate F)) rfl lines
  rw [← Deflate.oneOffer_iff]
  constructor
  · rintro ⟨d, hd, h⟩
    rw [hconf] at hd
    cases hd
    exact h
  · exact fun h => ⟨_, hconf, h⟩

/-- An offer with an unknown parameter takes back the answer to the offer before it. -/
theorem not_one_offer :
    ¬ ∀ (F : Flate) (lines : List String), ∃ d : Deflate F,
      configureHeaders [Deflate.new .server] (extensionHeaders lines) = (.ok (), [d]) ∧
        Deflate.OneOffer (deflateOffers lines) d := by
  intro h
  obtain ⟨d, hd, hone⟩ := h .stored
    ["permessage-deflate; server_no_context_takeover, permessage-deflate; foo"]
  have hoffers : deflateOffers
      ["permessage-deflate; server_no_context_takeover, permessage-deflate; foo"] =
      [[⟨"server_no_context_takeover", none⟩], [⟨"foo", none⟩]] := by decide
  rw [configureHeaders_single rfl] at hd
  rw [hoffers] at hd hone
  cases hd
  obtain ⟨o, ho, hacc, hp, -⟩ := hone.one (by decide)
  simp only [List.mem_cons, List.not_mem_nil, or_false] at ho
  rcases ho with rfl | rfl
  · revert hp
    decide
  · revert hacc
    decide

end Soketto
