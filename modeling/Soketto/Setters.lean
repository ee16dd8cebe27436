import Soketto.Negotiation

/-!
# Windows that are set several times

A client may set the windows of its deflate extension any number of times before it makes its offer.

* `Deflate.setAll`: calls of the setters, one after the other; **`setAll_afterSetters`**: what they
  leave behind.
* `Deflate.LastWins`, `Deflate.Negotiates`: what is asked of the offer afterwards.
* **`setters_last_win_iff`**: the offer is as asked for unless the window of the server was set twice.
-/

set_option autoImplicit false

namespace Soketto

open Handshake Text

namespace Deflate

variable {F : Flate}

/-! ## Calls of the setters -/

/-- A call of a setter. -/
inductive Setter where
  | server (max : UInt8)
  | client (max : UInt8)
  deriving DecidableEq

namespace Setter

/-- The window in the call. -/
def max : Setter → UInt8
  | .server max => max
  | .client max => max

/-- The window for the server. -/
def server? : Setter → Option UInt8
  | .server max => some max
  | .client _ => none

/-- The window for the client. -/
def client? : Setter → Option UInt8
  | .server _ => none
  | .client max => some max

end Setter

/-- Call a setter; `none` is a failed assertion. -/
def set (self : Deflate F) : Setter → Option (Deflate F)
  | .server max => self.setMaxServerWindowBits max
  | .client max => self.setMaxClientWindowBits max

/-- Call one setter after the other. -/
def setAll : Deflate F → List Setter → Option (Deflate F)
  | self, [] => some self
  | self, s :: ss => (self.set s).bind fun self => self.setAll ss

/-- The windows for the server, in the order of the calls. -/
def serverWindows (ss : List Setter) : List UInt8 := ss.filterMap Setter.server?

/-- The windows for the client, in the order of the calls. -/
def clientWindows (ss : List Setter) : List UInt8 := ss.filterMap Setter.client?

/-- The extension of a client after these windows were set. A window for the client replaces the one
before it, a window for the server is added to those before it. -/
def afterSetters (sv cv : List UInt8) : Deflate F :=
  { (Deflate.new .client : Deflate F) with
    params := .new serverNoContextTakeover :: .new clientNoContextTakeover ::
      (Param.new clientMaxWindowBits).setValue (cv.getLast?.map fun v => toString v.toNat) ::
      sv.map (windowParam serverMaxWindowBits)
    ourMaxWindowBits := cv.getLast?.getD 15
    theirMaxWindowBits := sv.getLast?.getD 15 }

theorem set_afterSetters {s : Setter} (hs : 8 < s.max ∧ s.max ≤ 15) (sv cv : List UInt8) :
    (afterSetters sv cv : Deflate F).set s =
      some (afterSetters (sv ++ s.server?.toList) (cv ++ s.client?.toList)) := by
  cases s with
  | server max =>
    have hassert : (afterSetters sv cv : Deflate F).mode = .client ∧ 8 < max ∧ max ≤ 15 := ⟨rfl, hs⟩
    rw [set, setMaxServerWindowBits, if_pos hassert]
    simp [afterSetters, Setter.server?, Setter.client?]
  | client max =>
    have hassert : (afterSetters sv cv : Deflate F).mode = .client ∧ 8 < max ∧ max ≤ 15 := ⟨rfl, hs⟩
    have hpush : setOrPush clientMaxWindowBits max (afterSetters sv cv : Deflate F).params =
        (afterSetters sv (cv ++ [max]) : Deflate F).params := by
      have hfirst : ∀ x ps, setOrPush clientMaxWindowBits max (.new serverNoContextTakeover ::
          .new clientNoContextTakeover :: (Param.new clientMaxWindowBits).setValue x :: ps) =
            .new serverNoContextTakeover :: .new clientNoContextTakeover ::
              (Param.new clientMaxWindowBits).setValue (some (toString max.toNat)) :: ps :=
        fun _ _ => rfl
      simp [afterSetters, hfirst]
    rw [set, setMaxClientWindowBits, if_pos hassert, hpush]
    simp [afterSetters, Setter.server?, Setter.client?]

/-- **All calls.** -/
theorem setAll_afterSetters {ss : List Setter} (hss : ∀ s ∈ ss, 8 < s.max ∧ s.max ≤ 15)
    (sv cv : List UInt8) :
    (afterSetters sv cv : Deflate F).setAll ss =
      some (afterSetters (sv ++ serverWindows ss) (cv ++ clientWindows ss)) := by
  induction ss generalizing sv cv with
  | nil => simp [setAll, serverWindows, clientWindows]
  | cons s ss ih =>
    obtain ⟨hs, htail⟩ := List.forall_mem_cons.mp hss
    have hsv : serverWindows (s :: ss) = s.server?.toList ++ serverWindows ss := by cases s <;> rfl
    have hcv : clientWindows (s :: ss) = s.client?.toList ++ clientWindows ss := by cases s <;> rfl
    rw [setAll, set_afterSetters hs, Option.bind_some, ih htail, hsv, hcv, List.append_assoc,
      List.append_assoc]

/-! ## The offer -/

/-- The parameters have each name once and carry the windows that were set last. -/
structure LastWins (ss : List Setter) (d : Deflate F) : Prop where
  nodup : (d.params.map Param.name).Nodup
  server : ∀ v ∈ (serverWindows ss).getLast?, windowParam serverMaxWindowBits v ∈ d.params
  client : ∀ v ∈ (clientWindows ss).getLast?, windowParam clientMaxWindowBits v ∈ d.params

/-- Client and server are both enabled when the server has read the offer and the client the
answer. -/
def Negotiates (G : Flate) (d : Deflate F) : Prop :=
  ∃ (s : Deflate G) (c : Deflate F),
    configureHeaders [(Deflate.new .server : Deflate G)] (offerHeaders [d]) = (.ok (), [s]) ∧
    configureHeaders [d] (offerHeaders ([s].filter Extension.isEnabled)) = (.ok (), [c]) ∧
    s.enabled = true ∧ c.enabled = true

theorem names_afterSetters (sv cv : List UInt8) :
    (afterSetters sv cv : Deflate F).params.map Param.name =
      [serverNoContextTakeover, clientNoContextTakeover, clientMaxWindowBits] ++
        List.replicate sv.length serverMaxWindowBits := by
  have hname : Param.name ∘ windowParam serverMaxWindowBits = fun _ => serverMaxWindowBits := rfl
  simp [afterSetters, Param.new, Param.setValue, hname, List.map_const']

theorem nodup_afterSetters_iff (sv cv : List UInt8) :
    ((afterSetters sv cv : Deflate F).params.map Param.name).Nodup ↔ sv.length ≤ 1 := by
  rw [names_afterSetters]
  constructor
  · exact fun h => List.nodup_replicate.mp (List.nodup_append.mp h).2.1
  · intro h
    obtain hlen | hlen : sv.length = 0 ∨ sv.length = 1 := by omega
    · rw [hlen]
      decide
    · rw [hlen]
      decide

theorem configureHeaders_offerHeader {G : Flate} {d : Deflate F} (hd : PlainParams [d])
    (x : Deflate G) :
    configureHeaders [x] (offerHeaders [d]) = (.ok (), [(x.configure d.params).2]) := by
  have hplain := hd d List.mem_cons_self
  have hcomma : ∀ e ∈ [d], ',' ∉ extensionText e := by
    intro e he
    obtain rfl := List.mem_singleton.mp he
    exact comma_not_mem_extensionText isPlain_deflate.comma fun p hp =>
      ⟨(hplain p hp).1.comma, fun v hv => ((hplain p hp).2 v hv).comma⟩
  have hoffer : parseOffer (extensionText d) = ⟨"permessage-deflate", d.params⟩ :=
    parseOffer_extensionText isPlain_deflate hplain
  have hfirst : configureFirst ⟨"permessage-deflate", d.params⟩ [x] =
      (.ok (), [(x.configure d.params).2]) := by
    have hname : eqIgnoreAsciiCase (Extension.name x) "permessage-deflate" = true :=
      beq_self_eq_true _
    rw [configureFirst, if_pos hname, ← x.configure_ok d.params]
    rfl
  rw [configureHeaders_offers hcomma, List.map_singleton, hoffer, configureOffers, hfirst]
  rfl

theorem negotiates_withWindows (G : Flate) {sv cv : Option UInt8} (hs : Admitted sv)
    (hc : Admitted cv) : Negotiates G (withWindows sv cv : Deflate F) := by
  have hserver := configureHeaders_offerHeader (plainParams_withWindows (F := F) hs hc)
    (Deflate.new .server : Deflate G)
  rw [configure_withWindows F hs hc] at hserver
  have hplain : PlainParams [(answering sv cv : Deflate G)] := plainParams_answering hs
  have hclient := configureHeaders_offerHeader hplain (withWindows sv cv : Deflate F)
  rw [configure_answering G hs] at hclient
  exact ⟨_, _, hserver, hclient, rfl, rfl⟩

theorem afterSetters_eq_withWindows {sv : List UInt8} (h : sv.length ≤ 1) (cv : List UInt8) :
    (afterSetters sv cv : Deflate F) = withWindows sv.getLast? cv.getLast? := by
  rcases sv with _ | ⟨v, _ | ⟨w, sv⟩⟩
  · rfl
  · rfl
  · simp at h

theorem admitted_getLast? {f : Setter → Option UInt8} (hf : ∀ s, ∀ v ∈ f s, s.max = v)
    {ss : List Setter} (h : ∀ s ∈ ss, 8 < s.max ∧ s.max ≤ 15) :
    Admitted (ss.filterMap f).getLast? := by
  intro v hv
  obtain ⟨s, hs, hsv⟩ := List.mem_filterMap.mp (List.mem_of_getLast? hv)
  exact hf s v hsv ▸ h s hs

theorem Setter.max_of_server? (s : Setter) : ∀ v ∈ s.server?, s.max = v := by
  cases s <;> simp [Setter.server?, Setter.max]

theorem Setter.max_of_client? (s : Setter) : ∀ v ∈ s.client?, s.max = v := by
  cases s <;> simp [Setter.client?, Setter.max]

theorem lastWins_iff (ss : List Setter) :
    LastWins ss (afterSetters (serverWindows ss) (clientWindows ss) : Deflate F) ↔
      (serverWindows ss).length ≤ 1 := by
  constructor
  · exact fun h => (nodup_afterSetters_iff _ _).mp h.nodup
  · intro hlen
    refine ⟨(nodup_afterSetters_iff _ _).mpr hlen, fun v hv => ?_, fun v hv => ?_⟩
    · have hmem := List.mem_map_of_mem (f := windowParam serverMaxWindowBits)
        (List.mem_of_getLast? hv)
      exact List.mem_cons_of_mem _ (List.mem_cons_of_mem _ (List.mem_cons_of_mem _ hmem))
    · have hv : (clientWindows ss).getLast? = some v := hv
      simp [afterSetters, hv, windowParam]

end Deflate

open Deflate in
/-- **When the setters keep to the last call**: the offer has each parameter once, with the window
that was set last, and is accepted on both sides, if and only if the window of the server was set once
at most. -/
theorem setters_last_win_iff {F : Flate} (G : Flate) {ss : List Setter}
    (h : ∀ s ∈ ss, 8 < s.max ∧ s.max ≤ 15) :
    ∃ d, (Deflate.new .client : Deflate F).setAll ss = some d ∧
      (LastWins ss d ∧ Negotiates G d ↔ (serverWindows ss).length ≤ 1) := by
  refine ⟨_, setAll_afterSetters h [] [], ?_⟩
  rw [List.nil_append, List.nil_append, lastWins_iff]
  refine ⟨And.left, fun hlen => ⟨hlen, ?_⟩⟩
  rw [afterSetters_eq_withWindows hlen]
  exact negotiates_withWindows G (admitted_getLast? Setter.max_of_server? h)
    (admitted_getLast? Setter.max_of_client? h)

open Deflate in
/-- The window of the client is set twice and that of the server once. -/
theorem setters_last_win_iff_client :
    ∃ d, (Deflate.new .client : Deflate .stored).setAll [.client 12, .server 10, .client 11] =
      some d ∧ LastWins [.client 12, .server 10, .client 11] d ∧ Negotiates .stored d := by
  obtain ⟨d, hd, hiff⟩ := @setters_last_win_iff .stored .stored
    [.client 12, .server 10, .client 11] (by decide)
  exact ⟨d, hd, hiff.mpr (by decide)⟩

open Deflate in
/-- The window of the server is set to 12 and then to 10: both are offered. -/
theorem not_setters_last_win :
    ¬∀ (F G : Flate) (ss : List Setter), (∀ s ∈ ss, 8 < s.max ∧ s.max ≤ 15) →
      ∀ d, (Deflate.new .client : Deflate F).setAll ss = some d → LastWins ss d ∧ Negotiates G d := by
  intro h
  have hd := h .stored .stored [.server 12, .server 10] (by decide) _ rfl
  exact absurd hd.1.nodup (by decide)

end Soketto
