import Soketto.Connection.Send
import Soketto.Handshake.Render
import Soketto.Offers
import Soketto.Windows

/-!
# The negotiation of deflate

A client offers its extensions in a header, the server configures its own with it and answers with
those that are enabled, and the client configures its own with the answer.

* `Harmless`, `OthersNoComma`: what is asked of the other extensions of client and server, and of what
  is written of them.
* `deflates`: the deflate extensions in a list; **`configureHeaders_offerHeaders`**: they are
  configured with those that were offered, whatever other extensions there are.
* `Deflate.SetOnce`: the extension of a client whose windows were set at most once each.
* **`negotiation`**: both sides agree on deflate and on the windows. `Mirror`: an extension that answers
  with what it gets.
-/

set_option autoImplicit false

namespace Soketto

open Handshake Text
open Chunked (Source)

/-- An extension that has a token for a name, uses no reserved bit, and does not fail when it is
configured with what stands in a header. -/
structure Ordinary {X : Type} [Extension X] (x : X) : Prop where
  token : IsToken (Extension.name x)
  reservedBits : Extension.reservedBits x = (false, false, false)
  configure : ∀ ps, FromHeader ps → (Extension.configure x ps).1 = .ok ()

/-- Such an extension whose name is not that of deflate, whatever the case of its letters. -/
structure Harmless {X : Type} [Extension X] (x : X) : Prop extends Ordinary x where
  name_ne : eqIgnoreAsciiCase "permessage-deflate" (Extension.name x) = false

section Lists

variable {F : Flate} {X : Type}

/-- The deflate extensions of a list. -/
def deflates (es : List (Deflate F ⊕ X)) : List (Deflate F) := es.filterMap Sum.getLeft?

variable [Extension X]

/-- The other extensions of a list are harmless, whatever header configures them. -/
def OthersHarmless (es : List (Deflate F ⊕ X)) : Prop :=
  ∀ x, Sum.inr x ∈ es → Extension.Always FromHeader Harmless x

/-- There is no comma in what is written of the other extensions of a list. -/
def OthersNoComma (es : List (Deflate F ⊕ X)) : Prop :=
  ∀ x, Sum.inr x ∈ es → NoComma (Extension.params x)

/-- The first of the extensions is configured. -/
def configureHead (ds : List (Deflate F)) (ps : List Param) : List (Deflate F) :=
  match ds with
  | [] => []
  | d :: ds => (d.configure ps).2 :: ds

theorem Deflate.configure_ok (d : Deflate F) (ps : List Param) : (d.configure ps).1 = .ok () := by
  unfold Deflate.configure
  split
  · rcases Deflate.walkParams Deflate.serverParam { d with params := [] } ps with ⟨d₁, _ | _⟩ <;> rfl
  · rcases Deflate.walkParams Deflate.clientParam d ps with ⟨d₁, _ | _⟩
    · rfl
    · dsimp only
      split_ifs <;> rfl

/-- What is asked of an extension that may be deflate or another one. -/
def Quiet (e : Deflate F ⊕ X) : Prop := ∀ x, e = .inr x → Harmless x

theorem Quiet.configure {e : Deflate F ⊕ X} (h : Quiet e) (ps : List Param) (hps : FromHeader ps) :
    (Extension.configure e ps).1 = .ok () := by
  cases e with
  | inl d => exact d.configure_ok ps
  | inr x => exact (h x rfl).configure ps hps

theorem configured_inl (d : Deflate F) (pss : List (List Param)) :
    Extension.configured (.inl d : Deflate F ⊕ X) pss = .inl (Extension.configured d pss) := by
  induction pss generalizing d with
  | nil => rfl
  | cons ps pss ih => exact ih _

theorem configured_inr (x : X) (pss : List (List Param)) :
    Extension.configured (.inr x : Deflate F ⊕ X) pss = .inr (Extension.configured x pss) := by
  induction pss generalizing x with
  | nil => rfl
  | cons ps pss ih => exact ih _

/-- What always holds of the other extensions of a list. -/
theorem always_others_iff {D : List Param → Prop} {P : X → Prop} (es : List (Deflate F ⊕ X)) :
    (∀ x, Sum.inr x ∈ es → Extension.Always D P x) ↔
      ∀ e ∈ es, Extension.Always D (fun e => ∀ x, e = .inr x → P x) e := by
  constructor
  · intro h e he pss hpss
    cases e with
    | inl d =>
      rw [configured_inl]
      intro x hx
      cases hx
    | inr x =>
      rw [configured_inr]
      intro y hy
      cases hy
      exact h x he pss hpss
  · intro h x hx pss hpss
    have hq := h _ hx pss hpss
    rw [configured_inr] at hq
    exact hq _ rfl

theorem othersHarmless_iff (es : List (Deflate F ⊕ X)) :
    OthersHarmless es ↔ ∀ e ∈ es, Extension.Always FromHeader Quiet e := always_others_iff es

/-- **One offer** configures the first deflate extension if it is one of deflate, and none
otherwise. -/
theorem deflates_configureFirst (o : Offer) {es : List (Deflate F ⊕ X)} (h : OthersHarmless es) :
    deflates (configureFirst o es).2 =
      if isDeflate o then configureHead (deflates es) o.params else deflates es := by
  induction es with
  | nil => simp [configureFirst, deflates, configureHead]
  | cons e es ih =>
    have hdef := ih fun x hx => h x (List.mem_cons_of_mem _ hx)
    cases e with
    | inl d =>
      have hd : deflates (.inl d :: es) = d :: deflates es := rfl
      have hname : Extension.name (.inl d : Deflate F ⊕ X) = "permessage-deflate" := rfl
      rw [configureFirst, hname, hd]
      by_cases ho : isDeflate o = true
      · rw [if_pos ho, if_pos (show eqIgnoreAsciiCase _ _ = true from ho)]
        rfl
      · rw [if_neg ho, if_neg (show ¬ eqIgnoreAsciiCase _ _ = true from ho)]
        rw [if_neg ho] at hdef
        exact congrArg (d :: ·) hdef
    | inr x =>
      have hd : deflates (.inr x :: es) = deflates es := rfl
      rw [configureFirst, hd]
      by_cases hname : eqIgnoreAsciiCase (Extension.name (.inr x : Deflate F ⊕ X)) o.name = true
      · -- the offer has the name of `x`, which is not the name of deflate
        have ho : isDeflate o = false := by
          rw [← (h x List.mem_cons_self).now.name_ne, isDeflate, eqIgnoreAsciiCase,
            eqIgnoreAsciiCase]
          rw [eqIgnoreAsciiCase, beq_iff_eq] at hname
          rw [← hname]
          rfl
        rw [if_pos hname, ho]
        rfl
      · rw [if_neg hname]
        exact hdef

theorem deflates_configureOffers {offers : List Offer} (ho : ∀ o ∈ offers, FromHeader o.params)
    {es : List (Deflate F ⊕ X)} (h : OthersHarmless es) :
    deflates (configureOffers es offers).2 =
      ((offers.filter isDeflate).map Offer.params).foldl configureHead (deflates es) := by
  induction offers generalizing es with
  | nil => rfl
  | cons o offers ih =>
    obtain ⟨hok, hquiet⟩ := configureFirst_ok (fun e he => he.configure) (ho o List.mem_cons_self)
      ((othersHarmless_iff es).mp h)
    have hdef := deflates_configureFirst o h
    rw [configureOffers]
    rcases hc : configureFirst o es with ⟨r, es'⟩
    rw [hc] at hok hquiet hdef
    obtain rfl : r = .ok () := hok
    dsimp only
    rw [ih (fun o' ho' => ho o' (List.mem_cons_of_mem _ ho')) ((othersHarmless_iff es').mpr hquiet), hdef]
    by_cases hd : isDeflate o = true
    · rw [if_pos hd, List.filter_cons_of_pos hd]
      rfl
    · rw [if_neg hd, List.filter_cons_of_neg hd]

/-- The parameters of deflate extensions have no separator in them. -/
def PlainParams (ds : List (Deflate F)) : Prop :=
  ∀ d ∈ ds, ∀ p ∈ d.params, IsPlain p.name.toList ∧ ∀ v ∈ p.value, IsPlain v.toList

theorem isPlain_deflate : IsPlain "permessage-deflate".toList :=
  IsToken.isPlain (by decide : IsToken "permessage-deflate")

omit [Extension X] in
theorem mem_deflates {d : Deflate F} {es : List (Deflate F ⊕ X)} (h : Sum.inl d ∈ es) :
    d ∈ deflates es := List.mem_filterMap.mpr ⟨_, h, rfl⟩

theorem comma_not_mem {es : List (Deflate F ⊕ X)} (h : OthersHarmless es) (hn : OthersNoComma es)
    (hp : PlainParams (deflates es)) : ∀ e ∈ es, ',' ∉ extensionText e := by
  intro e he
  cases e with
  | inl d =>
    refine comma_not_mem_extensionText isPlain_deflate.comma fun p hmem => ?_
    obtain ⟨hn, hv⟩ := hp d (mem_deflates he) p hmem
    exact ⟨hn.comma, fun v hv' => (hv v hv').comma⟩
  | inr x =>
    exact comma_not_mem_extensionText (h x he).now.token.isPlain.comma (hn x he)

theorem deflate_offers {es : List (Deflate F ⊕ X)} (h : OthersHarmless es)
    (hp : PlainParams (deflates es)) :
    ((es.map fun e => parseOffer (extensionText e)).filter isDeflate).map Offer.params =
      (deflates es).map Deflate.params := by
  induction es with
  | nil => rfl
  | cons e es ih =>
    have htail : OthersHarmless es := fun x hx => h x (List.mem_cons_of_mem _ hx)
    cases e with
    | inl d =>
      have hd : deflates (.inl d :: es) = d :: deflates es := rfl
      rw [hd] at hp ⊢
      have hoffer : parseOffer (extensionText (.inl d : Deflate F ⊕ X)) =
          ⟨"permessage-deflate", d.params⟩ :=
        parseOffer_extensionText isPlain_deflate (hp d List.mem_cons_self)
      have hyes : isDeflate ⟨"permessage-deflate", d.params⟩ = true := by simp [isDeflate,
        eqIgnoreAsciiCase]
      rw [List.map_cons, hoffer, List.filter_cons_of_pos hyes, List.map_cons, List.map_cons,
        ih htail fun d' hd' => hp d' (List.mem_cons_of_mem _ hd')]
    | inr x =>
      have hd : deflates (.inr x :: es) = deflates es := rfl
      rw [hd] at hp ⊢
      have hx := (h x List.mem_cons_self).now
      have hname : (parseOffer (extensionText (.inr x : Deflate F ⊕ X))).name = Extension.name x :=
        name_parseOffer (e := (.inr x : Deflate F ⊕ X)) hx.token.isPlain
      have hno : ¬ isDeflate (parseOffer (extensionText (.inr x : Deflate F ⊕ X))) = true := by
        rw [isDeflate, hname, hx.name_ne]
        exact Bool.false_ne_true
      rw [List.map_cons, List.filter_cons_of_neg hno, ih htail hp]

/-- **Extensions that are offered in a header** configure the deflate extensions of the other side
with the parameters of their deflate extensions. -/
theorem configureHeaders_offerHeaders {G : Flate} {Y : Type} [Extension Y]
    {es : List (Deflate F ⊕ X)} {ts : List (Deflate G ⊕ Y)} (hes : OthersHarmless es)
    (hn : OthersNoComma es) (hp : PlainParams (deflates es)) (hts : OthersHarmless ts) :
    ∃ ts', configureHeaders ts (offerHeaders es) = (.ok (), ts') ∧ OthersHarmless ts' ∧
      deflates ts' = ((deflates es).map Deflate.params).foldl configureHead (deflates ts) := by
  have ho : ∀ o ∈ es.map fun e => parseOffer (extensionText e), FromHeader o.params := by
    intro o hmem
    have hne : es ≠ [] := by
      rintro rfl
      cases hmem
    rw [← parseOffers_offerLine hne (comma_not_mem hes hn hp)] at hmem
    exact ⟨offerLine es, o, hmem, rfl⟩
  obtain ⟨hok, hquiet⟩ := configureOffers_ok (fun e he => he.configure) ho ((othersHarmless_iff ts).mp hts)
  have hdef := deflates_configureOffers ho hts
  rw [deflate_offers hes hp] at hdef
  refine ⟨_, ?_, (othersHarmless_iff _).mpr hquiet, hdef⟩
  rw [configureHeaders_offers (comma_not_mem hes hn hp)]
  exact Prod.ext hok rfl

/-- Extensions that never have a comma of their own have none after an offer. -/
theorem OthersHarmless.noComma {F G : Flate} {X Y : Type} [Extension X] [Extension Y]
    {ts : List (Deflate G ⊕ Y)} (hts : OthersHarmless ts) (es : List (Deflate F ⊕ X))
    (hn : ∀ y, Sum.inr y ∈ ts → Extension.Always FromHeader (fun y => NoComma (Extension.params y)) y) :
    OthersNoComma (configureHeaders ts (offerHeaders es)).2 := by
  have hboth : ∀ e ∈ ts, Extension.Always FromHeader (fun e => Quiet e ∧
      ∀ y, e = .inr y → NoComma (Extension.params y)) e := fun e he pss hpss =>
    ⟨(othersHarmless_iff ts).mp hts e he pss hpss, (always_others_iff ts).mp hn e he pss hpss⟩
  obtain ⟨ts', hconf, hall⟩ := configureHeaders_ok (fun e he => he.1.configure)
    (fun h (hh : h ∈ offerHeaders es) => fromHeader_offerHeaders hh) hboth
  rw [hconf]
  exact fun y hy => (hall _ hy).now.2 y rfl

end Lists

/-! ## Client and server -/

namespace Deflate

variable {F : Flate}

/-- The client's extension after its windows were set at most once each: the flags tell whether the
server's and the client's window were. -/
inductive SetOnce : Bool → Bool → Deflate F → Prop
  | new : SetOnce false false (Deflate.new .client)
  | server {b : Bool} {d d' : Deflate F} (h : SetOnce false b d) (max : UInt8)
      (hd : d.setMaxServerWindowBits max = some d') : SetOnce true b d'
  | client {b : Bool} {d d' : Deflate F} (h : SetOnce b false d) (max : UInt8)
      (hd : d.setMaxClientWindowBits max = some d') : SetOnce b true d'

/-- The client's extension with these windows. -/
def withWindows (sv cv : Option UInt8) : Deflate F :=
  { (Deflate.new .client : Deflate F) with
    params := .new serverNoContextTakeover :: .new clientNoContextTakeover ::
      (Param.new clientMaxWindowBits).setValue (cv.map fun v => toString v.toNat) ::
      (sv.map (windowParam serverMaxWindowBits)).toList
    ourMaxWindowBits := cv.getD 15
    theirMaxWindowBits := sv.getD 15 }

/-- The windows that may be set. -/
def Admitted (w : Option UInt8) : Prop := ∀ v ∈ w, 8 < v ∧ v ≤ 15

theorem SetOnce.eq_withWindows {a b : Bool} {d : Deflate F} (h : SetOnce a b d) :
    ∃ sv cv, sv.isSome = a ∧ cv.isSome = b ∧ Admitted sv ∧ Admitted cv ∧ d = withWindows sv cv := by
  have hnone : Admitted none := fun v hv => nomatch hv
  have hsome : ∀ {m : UInt8}, 8 < m ∧ m ≤ 15 → Admitted (some m) := fun hm v hv => by
    cases hv
    exact hm
  induction h with
  | new => exact ⟨none, none, rfl, rfl, hnone, hnone, rfl⟩
  | @server b d d' _ m hd ih =>
    obtain ⟨sv, cv, hs, hc, -, hcv, rfl⟩ := ih
    obtain rfl : sv = none := by simpa using hs
    unfold setMaxServerWindowBits at hd
    split_ifs at hd with hm
    cases hd
    exact ⟨some m, cv, rfl, hc, hsome hm.2, hcv, rfl⟩
  | @client b d d' _ m hd ih =>
    obtain ⟨sv, cv, hs, hc, hsv, -, rfl⟩ := ih
    obtain rfl : cv = none := by simpa using hc
    unfold setMaxClientWindowBits at hd
    split_ifs at hd with hm
    cases hd
    exact ⟨sv, some m, hs, rfl, hsv, hsome hm.2, rfl⟩

/-- The server's extension after the offer of such a client. -/
def answering (sv cv : Option UInt8) : Deflate F :=
  { (Deflate.new .server : Deflate F) with
    enabled := true
    params := .new serverNoContextTakeover :: .new clientNoContextTakeover ::
      (sv.map (windowParam serverMaxWindowBits)).toList
    ourMaxWindowBits := sv.getD 15
    theirMaxWindowBits := cv.getD 15 }

section

variable {sv cv : Option UInt8}

theorem Admitted.not_outside {v : UInt8} (h : 8 < v ∧ v ≤ 15) : ¬(v < 9 ∨ 15 < v) := by
  simp only [UInt8.lt_iff_toNat_lt, UInt8.le_iff_toNat_le] at *
  have h₈ : (8 : UInt8).toNat = 8 := rfl
  have h₉ : (9 : UInt8).toNat = 9 := rfl
  omega

theorem Admitted.range {v : UInt8} (h : 8 < v ∧ v ≤ 15) : ¬(v < 8 ∨ 15 < v) ∧ max 9 v = v := by
  have hv := Admitted.not_outside h
  refine ⟨?_, if_pos (UInt8.not_lt.mp fun hlt => hv (Or.inl hlt))⟩
  rw [UInt8.lt_iff_toNat_lt, UInt8.lt_iff_toNat_lt] at hv ⊢
  have h₈ : (8 : UInt8).toNat = 8 := rfl
  have h₉ : (9 : UInt8).toNat = 9 := rfl
  omega

theorem windowParam_name (name : String) (v : UInt8) : (windowParam name v).name = name := rfl

theorem serverParam_clientMax {v : UInt8} (h : 8 < v ∧ v ≤ 15) (d : Deflate F) :
    d.serverParam (windowParam clientMaxWindowBits v) = ({ d with theirMaxWindowBits := v }, true) := by
  have hv : ((windowParam clientMaxWindowBits v).value.bind parseU8) = some v :=
    parseU8_toString (Admitted.not_outside h)
  obtain ⟨hr, hm⟩ := Admitted.range h
  rw [serverParam, windowParam_name, if_pos rfl, setTheirMaxWindowBits, hv]
  simp [hr, hm]

theorem serverParam_serverMax {v : UInt8} (h : 8 < v ∧ v ≤ 15) (d : Deflate F) :
    d.serverParam (windowParam serverMaxWindowBits v) =
      ({ d with
          params := d.params ++ [windowParam serverMaxWindowBits v]
          ourMaxWindowBits := v }, true) := by
  have hv : ((windowParam serverMaxWindowBits v).value.bind parseU8) = some v :=
    parseU8_toString (Admitted.not_outside h)
  rw [serverParam, windowParam_name, if_neg (by decide), if_pos rfl, hv]
  simp [Admitted.not_outside h]

theorem clientParam_serverMax {v : UInt8} (h : 8 < v ∧ v ≤ 15) {d : Deflate F}
    (hd : d.theirMaxWindowBits = v) :
    d.clientParam (windowParam serverMaxWindowBits v) = (d, true) := by
  have hv : ((windowParam serverMaxWindowBits v).value.bind parseU8) = some v :=
    parseU8_toString (Admitted.not_outside h)
  obtain ⟨hr, hm⟩ := Admitted.range h
  subst hd
  rw [clientParam, windowParam_name, if_neg (by decide), if_neg (by decide), if_pos rfl,
    setTheirMaxWindowBits, hv]
  simp [hr, hm]

/-- The server accepts the offer of the client. -/
theorem configure_withWindows (G : Flate) (hs : Admitted sv) (hc : Admitted cv) :
    ((Deflate.new .server : Deflate F).configure (withWindows sv cv : Deflate G).params).2 =
      answering sv cv := by
  have hfirst : ∀ (d : Deflate F) ps, walkParams serverParam d (.new serverNoContextTakeover ::
      .new clientNoContextTakeover :: ps) = walkParams serverParam { d with
        params := d.params ++ [.new serverNoContextTakeover] ++ [.new clientNoContextTakeover] } ps :=
    fun _ _ => rfl
  have hclient : ∀ (d : Deflate F) ps, walkParams serverParam d ((Param.new
      clientMaxWindowBits).setValue (cv.map fun v => toString v.toNat) :: ps) =
        walkParams serverParam { d with theirMaxWindowBits := cv.getD d.theirMaxWindowBits } ps := by
    intro d ps
    cases cv with
    | none => rfl
    | some v =>
      change walkParams serverParam d (windowParam clientMaxWindowBits v :: ps) = _
      rw [walkParams, serverParam_clientMax (hc v rfl)]
      rfl
  have hserver : ∀ d : Deflate F, walkParams serverParam d
      (sv.map (windowParam serverMaxWindowBits)).toList = ({ d with
        params := d.params ++ (sv.map (windowParam serverMaxWindowBits)).toList
        ourMaxWindowBits := sv.getD d.ourMaxWindowBits }, true) := by
    intro d
    cases sv with
    | none => simp [walkParams]
    | some v => simp [walkParams, serverParam_serverMax (hs v rfl)]
  rw [configure_server rfl, withWindows, hfirst, hclient, hserver]
  rfl

/-- The client accepts the answer of the server. -/
theorem configure_answering (G : Flate) (hs : Admitted sv) :
    ((withWindows sv cv : Deflate F).configure (answering sv cv : Deflate G).params).2 =
      { (withWindows sv cv : Deflate F) with enabled := true } := by
  have hwalk : walkParams clientParam (withWindows sv cv : Deflate F)
      (answering sv cv : Deflate G).params = (withWindows sv cv, true) := by
    cases sv with
    | none => rfl
    | some v =>
      change walkParams clientParam _ [windowParam serverMaxWindowBits v] = _
      rw [walkParams, clientParam_serverMax (hs v rfl) rfl]
      rfl
  rw [configure_client_eq rfl, hwalk]
  rfl

end

end Deflate

/-! ## The builders -/

/-- Connections of the builder accept frames with RSV1. -/
def Builder.acceptsRsv1 {E : Type} (b : Builder E) : Bool := !(b.codec.reservedBits &&& 4 == 0)

section

variable {E : Type} [Extension E]

theorem or_and_four (r x : UInt8) : (r ||| x) &&& 4 = (r &&& 4) ||| (x &&& 4) := by
  refine UInt8.toBitVec_inj.mp (BitVec.eq_of_getElem_eq fun i hi => ?_)
  simp only [UInt8.toBitVec_and, UInt8.toBitVec_or, BitVec.getElem_and, BitVec.getElem_or]
  cases r.toBitVec[i] <;> cases x.toBitVec[i] <;> simp

theorem or_beq_zero (x y : UInt8) : (x ||| y == 0) = (x == 0 && y == 0) := by
  rw [Bool.eq_iff_iff, Bool.and_eq_true, beq_iff_eq, beq_iff_eq, beq_iff_eq]
  exact UInt8.or_eq_zero_iff

theorem rsv1_addReservedBits (c : Codec) (bits : Bool × Bool × Bool) :
    ((c.addReservedBits bits).reservedBits &&& 4 == 0) = ((c.reservedBits &&& 4 == 0) && !bits.1) := by
  obtain ⟨b₁, b₂, b₃⟩ := bits
  rw [Codec.addReservedBits]
  dsimp only
  rw [or_and_four, or_beq_zero]
  cases b₁ <;> cases b₂ <;> cases b₃ <;> rfl

theorem acceptsRsv1_addExtensions (b : Builder E) (es : List E) :
    (b.addExtensions es).acceptsRsv1 =
      (b.acceptsRsv1 || es.any fun e => Extension.isEnabled e && (Extension.reservedBits e).1) := by
  induction es generalizing b with
  | nil => simp [Builder.addExtensions]
  | cons e es ih =>
    have hstep : (b.addExtension e).acceptsRsv1 =
        (b.acceptsRsv1 || (Extension.isEnabled e && (Extension.reservedBits e).1)) := by
      unfold Builder.addExtension Builder.acceptsRsv1
      split_ifs with he
      · rw [rsv1_addReservedBits, he]
        simp
      · simp [he]
    have hcons : b.addExtensions (e :: es) = (b.addExtension e).addExtensions es := rfl
    rw [hcons, ih, hstep, List.any_cons, Bool.or_assoc]

end

/-! ## Agreement -/

section Agreement

variable {F G : Flate} {X Y : Type} [Extension X] [Extension Y]

omit [Extension X] in
theorem deflates_filter (p : Deflate F ⊕ X → Bool) (es : List (Deflate F ⊕ X)) :
    deflates (es.filter p) = (deflates es).filter fun d => p (.inl d) := by
  induction es with
  | nil => rfl
  | cons e es ih =>
    cases e with
    | inl d =>
      have hd : deflates (.inl d :: es) = d :: deflates es := rfl
      rw [hd, List.filter_cons, List.filter_cons, ← ih]
      split_ifs <;> rfl
    | inr x =>
      have hd : ∀ es : List (Deflate F ⊕ X), deflates (.inr x :: es) = deflates es := fun _ => rfl
      by_cases hp : p (.inr x) = true
      · rw [List.filter_cons_of_pos hp, hd, hd, ih]
      · rw [List.filter_cons_of_neg hp, hd, ih]

theorem OthersHarmless.filter {es : List (Deflate F ⊕ X)} (h : OthersHarmless es)
    (p : Deflate F ⊕ X → Bool) : OthersHarmless (es.filter p) :=
  fun x hx => h x (List.mem_filter.mp hx).1

theorem acceptsRsv1_new {es : List (Deflate F ⊕ X)} (h : OthersHarmless es)
    (socket : Source UInt8) (mode : Mode) :
    ((Builder.new socket mode).addExtensions es).acceptsRsv1 = (deflates es).any Deflate.enabled := by
  have hnew : (Builder.new socket mode : Builder (Deflate F ⊕ X)).acceptsRsv1 = false := by
    rw [Builder.acceptsRsv1, Builder.new,
      show (Codec.new.setMaxDataSize maxFrameSize).reservedBits = 0 from rfl]
    rfl
  rw [acceptsRsv1_addExtensions, hnew, Bool.false_or]
  induction es with
  | nil => rfl
  | cons e es ih =>
    rw [List.any_cons, ih fun x hx => h x (List.mem_cons_of_mem _ hx)]
    cases e with
    | inl d =>
      have hd : deflates (.inl d :: es) = d :: deflates es := rfl
      have hbits : (Extension.reservedBits (.inl d : Deflate F ⊕ X)).1 = true := rfl
      rw [hd, List.any_cons, hbits, Bool.and_true]
      rfl
    | inr x =>
      have hbits : Extension.reservedBits (.inr x : Deflate F ⊕ X) = (false, false, false) :=
        (h x List.mem_cons_self).now.reservedBits
      rw [hbits, Bool.and_false, Bool.false_or]
      rfl

theorem isToken_window {v : UInt8} (h : ¬(v < 9 ∨ 15 < v)) : IsToken (toString v.toNat) := by
  rcases Deflate.window_cases h with rfl | rfl | rfl | rfl | rfl | rfl | rfl <;> decide

theorem plain_param {p : Param} {w : Option UInt8} (hname : IsToken p.name)
    (hvalue : p.value = w.map fun v => toString v.toNat) (hw : Deflate.Admitted w) :
    IsPlain p.name.toList ∧ ∀ v ∈ p.value, IsPlain v.toList := by
  refine ⟨hname.isPlain, fun v hv => ?_⟩
  rw [hvalue] at hv
  obtain ⟨b, hb, rfl⟩ := Option.mem_map.mp hv
  exact (isToken_window (Deflate.Admitted.not_outside (hw b hb))).isPlain

section

variable {sv cv : Option UInt8}

theorem plain_common (hs : Deflate.Admitted sv) {p : Param}
    (hp : p ∈ Param.new serverNoContextTakeover :: .new clientNoContextTakeover ::
      (sv.map (Deflate.windowParam serverMaxWindowBits)).toList) :
    IsPlain p.name.toList ∧ ∀ v ∈ p.value, IsPlain v.toList := by
  have hnone : Deflate.Admitted none := fun v hv => nomatch hv
  simp only [List.mem_cons, Option.mem_toList] at hp
  rcases hp with rfl | rfl | hp
  · exact plain_param (w := none) (by decide) rfl hnone
  · exact plain_param (w := none) (by decide) rfl hnone
  · obtain ⟨v, hv, rfl⟩ := Option.mem_map.mp hp
    exact plain_param (w := some v) (show IsToken serverMaxWindowBits by decide) rfl
      (Option.mem_def.mp hv ▸ hs)

theorem plainParams_withWindows (hs : Deflate.Admitted sv) (hc : Deflate.Admitted cv) :
    PlainParams [(Deflate.withWindows sv cv : Deflate F)] := by
  intro d hd p hp
  obtain rfl := List.mem_singleton.mp hd
  rw [Deflate.withWindows, List.mem_cons, List.mem_cons, List.mem_cons] at hp
  by_cases hwin : p = (Param.new clientMaxWindowBits).setValue (cv.map fun v => toString v.toNat)
  · subst hwin
    exact plain_param (w := cv) (show IsToken clientMaxWindowBits by decide) rfl hc
  · refine plain_common hs ?_
    rw [List.mem_cons, List.mem_cons]
    tauto

theorem plainParams_answering (hs : Deflate.Admitted sv) :
    PlainParams [(Deflate.answering sv cv : Deflate F)] := by
  intro d hd p hp
  obtain rfl := List.mem_singleton.mp hd
  exact plain_common hs hp

end

/-- **Both sides agree on deflate.** A client whose windows were set at most once each makes its
offer. In the end its extension is enabled if and only if the server has one, which then is enabled
too; the windows of either side are within what the other expects; and a connection accepts RSV1 if
and only if deflate is enabled. The other extensions are harmless, and neither the client nor the
server writes a comma for them. -/
theorem negotiation {a b : Bool} {c : Deflate F} (hc : c.SetOnce a b) {cs : List (Deflate F ⊕ X)}
    {ss : List (Deflate G ⊕ Y)} (hcs : deflates cs = [c])
    (hss : deflates ss = [] ∨ deflates ss = [Deflate.new .server]) (hx : OthersHarmless cs)
    (hy : OthersHarmless ss) (hcn : OthersNoComma cs)
    (hsn : OthersNoComma ((configureHeaders ss (offerHeaders cs)).2.filter Extension.isEnabled)) :
    ∃ ss' cs' c',
      configureHeaders ss (offerHeaders cs) = (.ok (), ss') ∧
      configureHeaders cs (offerHeaders (ss'.filter Extension.isEnabled)) = (.ok (), cs') ∧
      deflates cs' = [c'] ∧ (c'.enabled = true ↔ deflates ss ≠ []) ∧
      (deflates ss').length = (deflates ss).length ∧
      (∀ s' ∈ deflates ss', s'.enabled = true ∧ s'.ourMaxWindowBits ≤ c'.theirMaxWindowBits ∧
        c'.ourMaxWindowBits ≤ s'.theirMaxWindowBits) ∧
      ∀ socket, ((Builder.new socket .client).addExtensions cs').acceptsRsv1 = c'.enabled ∧
        ((Builder.new socket .server).addExtensions ss').acceptsRsv1 = c'.enabled := by
  obtain ⟨sv, cv, -, -, hsv, hcv, rfl⟩ := hc.eq_withWindows
  have hoffer : PlainParams (deflates cs) := hcs ▸ plainParams_withWindows hsv hcv
  obtain ⟨ss', hconf, hharm, hdef⟩ := configureHeaders_offerHeaders hx hcn hoffer hy
  rw [hconf] at hsn
  rw [hcs, List.map_singleton, List.foldl_cons, List.foldl_nil] at hdef
  rcases hss with hss | hss
  · -- without deflate on the server the answer has none of it
    rw [hss, configureHead] at hdef
    have hnone : deflates (ss'.filter Extension.isEnabled) = [] := by
      rw [deflates_filter, hdef]
      rfl
    obtain ⟨cs', hconf', hharm', hdef'⟩ := configureHeaders_offerHeaders
      (hharm.filter Extension.isEnabled) hsn (by rw [hnone]; exact fun d hd => nomatch hd) hx
    rw [hnone, hcs] at hdef'
    refine ⟨ss', cs', _, hconf, hconf', hdef', by simp [hss, Deflate.withWindows, Deflate.new], ?_, ?_, ?_⟩
    · rw [hdef, hss]
    · rw [hdef]
      exact fun s' hs' => nomatch hs'
    · intro socket
      rw [acceptsRsv1_new hharm', acceptsRsv1_new hharm, hdef, hdef']
      exact ⟨Bool.or_false _, rfl⟩
  · rw [hss, configureHead, Deflate.configure_withWindows F hsv hcv] at hdef
    have hone : deflates (ss'.filter Extension.isEnabled) = [Deflate.answering sv cv] := by
      rw [deflates_filter, hdef]
      rfl
    obtain ⟨cs', hconf', hharm', hdef'⟩ := configureHeaders_offerHeaders
      (hharm.filter Extension.isEnabled) hsn (hone ▸ plainParams_answering hsv) hx
    rw [hone, hcs, List.map_singleton, List.foldl_cons, List.foldl_nil, configureHead,
      Deflate.configure_answering G hsv] at hdef'
    refine ⟨ss', cs', _, hconf, hconf', hdef', by simp [hss], ?_, ?_, ?_⟩
    · rw [hdef, hss]
      rfl
    · rw [hdef]
      intro s' hs'
      obtain rfl := List.mem_singleton.mp hs'
      exact ⟨rfl, UInt8.le_refl _, UInt8.le_refl _⟩
    · intro socket
      rw [acceptsRsv1_new hharm', acceptsRsv1_new hharm, hdef, hdef']
      exact ⟨rfl, rfl⟩

end Agreement

/-! ## An extension that answers with what it gets -/

/-- An extension that is enabled from the start, takes over the parameters it is configured with and
leaves frames alone. -/
structure Mirror where
  name : String
  params : List Param
  deriving DecidableEq

instance : Extension Mirror where
  isEnabled _ := true
  name := Mirror.name
  params := Mirror.params
  configure x ps := (.ok (), { x with params := ps })
  encode x header data := some ⟨.ok (), x, header, data⟩
  decode x header data := ⟨.ok (), x, header, data⟩

theorem ordinary_mirror {name : String} (hn : IsToken name) (params : List Param) :
    Ordinary (⟨name, params⟩ : Mirror) := ⟨hn, rfl, fun _ _ => rfl⟩

theorem harmless_mirror {name : String} (hn : IsToken name)
    (hne : eqIgnoreAsciiCase "permessage-deflate" name = false) (params : List Param) :
    Harmless (⟨name, params⟩ : Mirror) := ⟨ordinary_mirror hn params, hne⟩

theorem always_mirror {D : List Param → Prop} {P : Mirror → Prop} {x : Mirror}
    (h : ∀ params, P ⟨x.name, params⟩) : Extension.Always D P x := by
  have hname : Extension.Always D (fun y => y.name = x.name) x :=
    Extension.always_of_step (fun y hy ps _ => hy) rfl
  refine hname.imp fun {y} hy => ?_
  obtain ⟨name, params⟩ := y
  obtain rfl : name = x.name := hy
  exact h params

theorem noComma_mirror {x : Mirror} (h : NoComma x.params) :
    Extension.Always FromHeader (fun y => NoComma (Extension.params y)) x :=
  Extension.always_of_step (fun _ _ _ hps => hps.noComma) h

section

/-- A client's extension with windows of 10 and 12 bits. -/
def exampleClient : Deflate .stored := Deflate.withWindows (some 10) (some 12)

def exampleOffer : List (Deflate .stored ⊕ Mirror) :=
  [.inr ⟨"x-level", [⟨"level", some "1"⟩]⟩, .inl exampleClient]

def exampleServer : List (Deflate .stored ⊕ Mirror) := [.inl (.new .server), .inr ⟨"X-Level", []⟩]

theorem setOnce_exampleClient : exampleClient.SetOnce true true :=
  .client (.server .new 10 rfl) 12 rfl

theorem othersHarmless_example : OthersHarmless exampleOffer ∧ OthersHarmless exampleServer := by
  constructor
  · intro x hx
    obtain rfl : x = ⟨"x-level", [⟨"level", some "1"⟩]⟩ := by
      simpa [exampleOffer] using hx
    exact always_mirror (harmless_mirror (by decide) (by decide))
  · intro x hx
    obtain rfl : x = ⟨"X-Level", []⟩ := by
      simpa [exampleServer] using hx
    exact always_mirror (harmless_mirror (by decide) (by decide))

theorem noComma_example : OthersNoComma exampleOffer ∧
    OthersNoComma ((configureHeaders exampleServer (offerHeaders exampleOffer)).2.filter
      Extension.isEnabled) := by
  constructor
  · intro x hx
    obtain rfl : x = ⟨"x-level", [⟨"level", some "1"⟩]⟩ := by
      simpa [exampleOffer] using hx
    exact fun p hp => List.mem_singleton.mp hp ▸ by decide
  · refine fun y hy => othersHarmless_example.2.noComma exampleOffer (fun y hy => ?_) y
      (List.mem_filter.mp hy).1
    obtain rfl : y = ⟨"X-Level", []⟩ := by
      simpa [exampleServer] using hy
    exact noComma_mirror nofun

/-- Two sides agree on windows of 10 and 12 bits, and the server answers another extension with what
it has got. -/
theorem negotiation_windows :
    (exampleClient.SetOnce true true ∧ deflates exampleOffer = [exampleClient] ∧
      deflates exampleServer = [Deflate.new .server] ∧ OthersHarmless exampleOffer ∧
      OthersHarmless exampleServer ∧ OthersNoComma exampleOffer ∧
      OthersNoComma ((configureHeaders exampleServer (offerHeaders exampleOffer)).2.filter
        Extension.isEnabled)) ∧
    (configureHeaders exampleServer (offerHeaders exampleOffer)).2.getLast? =
      some (.inr ⟨"X-Level", [⟨"level", some "1"⟩]⟩) ∧
    ∃ ss' cs' c',
      configureHeaders exampleServer (offerHeaders exampleOffer) = (.ok (), ss') ∧
      configureHeaders exampleOffer (offerHeaders (ss'.filter Extension.isEnabled)) =
        (.ok (), cs') ∧
      deflates cs' = [c'] ∧ c'.enabled = true := by
  refine ⟨⟨setOnce_exampleClient, rfl, rfl, othersHarmless_example.1, othersHarmless_example.2,
    noComma_example⟩, by decide +kernel, ?_⟩
  obtain ⟨ss', cs', c', hs, hc, hd, he, -⟩ := negotiation setOnce_exampleClient rfl (Or.inr rfl)
    othersHarmless_example.1 othersHarmless_example.2 noComma_example.1 noComma_example.2
  exact ⟨ss', cs', c', hs, hc, hd, he.mpr (List.cons_ne_nil _ _)⟩

/-- Client and server enable deflate together, or neither does: for ordinary extensions of distinct
names besides it, and lists of the client and of the server such that `P`. -/
def EnabledAlike (P : List (Deflate .stored ⊕ Mirror) → List (Deflate .stored ⊕ Mirror) → Prop) : Prop :=
  ∀ (c : Deflate .stored) (cs ss ss' cs' : List (Deflate .stored ⊕ Mirror)), P cs ss →
    c.SetOnce false false → deflates cs = [c] →
    (deflates ss = [] ∨ deflates ss = [Deflate.new .server]) →
    (∀ x, .inr x ∈ cs ++ ss → Extension.Always FromHeader Ordinary x) →
    (cs.map Extension.name).Nodup → (ss.map Extension.name).Nodup →
    configureHeaders ss (offerHeaders cs) = (.ok (), ss') →
    configureHeaders cs (offerHeaders (ss'.filter Extension.isEnabled)) = (.ok (), cs') →
    ∀ c' ∈ deflates cs', (c'.enabled = true ↔ deflates ss ≠ [])

/-- A comma in a parameter of another extension of the server is read as the end of an offer: the
client's deflate is enabled by a server that has none. Without a comma, an extension of the client with
the name of deflate in other letters gets the answer, and the client's deflate stays disabled. -/
theorem not_negotiation :
    ¬ EnabledAlike (fun cs ss => OthersHarmless cs ∧ OthersHarmless ss) ∧
    ¬ EnabledAlike (fun cs ss => OthersNoComma cs ∧ OthersNoComma ss) := by
  constructor
  · intro h
    have hx : Extension.Always FromHeader Harmless
        (⟨"x", [⟨"a", some "1, permessage-deflate; server_no_context_takeover"⟩]⟩ : Mirror) :=
      always_mirror (harmless_mirror (by decide) (by decide))
    have hiff := h (.new .client) [.inl (.new .client)]
      [.inr ⟨"x", [⟨"a", some "1, permessage-deflate; server_no_context_takeover"⟩]⟩]
      [.inr ⟨"x", [⟨"a", some "1, permessage-deflate; server_no_context_takeover"⟩]⟩]
      [.inl { (Deflate.new .client : Deflate .stored) with enabled := true }]
      ⟨by simp [OthersHarmless], fun x hmem => by
        obtain rfl := (by simpa using hmem : x = _)
        exact hx⟩
      .new rfl (Or.inl rfl)
      (fun x hmem => by
        obtain rfl := (by simpa using hmem : x = _)
        exact hx.imp fun hx => hx.toOrdinary)
      (by decide) (by decide) (by decide) (by decide) _ List.mem_cons_self
    exact hiff.mp rfl rfl
  · intro h
    have hx : Extension.Always FromHeader Ordinary (⟨"Permessage-Deflate", []⟩ : Mirror) :=
      always_mirror (ordinary_mirror (by decide))
    have hiff := h (.new .client) [.inr ⟨"Permessage-Deflate", []⟩, .inl (.new .client)]
      [.inl (.new .server)]
      [.inl (Deflate.answering none none)]
      [.inr ⟨"Permessage-Deflate", [⟨"server_no_context_takeover", none⟩,
        ⟨"client_no_context_takeover", none⟩]⟩, .inl (.new .client)]
      ⟨fun x hmem => by
        obtain rfl := (by simpa using hmem : x = _)
        exact nofun, by simp [OthersNoComma]⟩
      .new rfl (Or.inr rfl)
      (fun x hmem => by
        obtain rfl := (by simpa using hmem : x = _)
        exact hx)
      (by decide) (by decide) (by decide +kernel) (by decide +kernel) (.new .client) (by decide)
    exact absurd (hiff.mpr (List.cons_ne_nil _ _)) (by decide)

end

end Soketto
