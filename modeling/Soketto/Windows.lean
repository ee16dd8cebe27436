import Soketto.Offers

/-!
# The windows of deflate

What setting and configuring the deflate extension does to its windows, with any parameters.

* `Deflate.Reached`: an extension after any calls of its setters and of `configure`.
* `Deflate.InRange`: the windows are of 9 to 15 bits. `Deflate.clientParam_cases`: what a parameter
  does to those of a client.
* **`windows_inRange`**: the windows stay in range, and those of a client never grow when it is
  configured.
-/

set_option autoImplicit false

namespace Soketto

open Handshake Text

namespace Deflate

variable {F : Flate}

/-! ## Ranges -/

/-- The windows are of 9 to 15 bits. -/
structure InRange (d : Deflate F) : Prop where
  our : 9 ≤ d.ourMaxWindowBits ∧ d.ourMaxWindowBits ≤ 15
  their : 9 ≤ d.theirMaxWindowBits ∧ d.theirMaxWindowBits ≤ 15

theorem toNat_max (a b : UInt8) : (max a b).toNat = max a.toNat b.toNat := by
  have h : max a b = if a ≤ b then b else a := rfl
  rw [h]
  split_ifs with hab <;> rw [UInt8.le_iff_toNat_le] at hab <;> omega

theorem toNat_min (a b : UInt8) : (min a b).toNat = min a.toNat b.toNat := by
  have h : min a b = if a ≤ b then a else b := rfl
  rw [h]
  split_ifs with hab <;> rw [UInt8.le_iff_toNat_le] at hab <;> omega

/-- **What a parameter of an answer does** to a client: nothing, or it lowers one of the windows. -/
theorem clientParam_cases (d : Deflate F) (p : Param) :
    (d.clientParam p).1 = d ∨
      (∃ v, p.name = serverMaxWindowBits ∧ v ≤ 15 ∧ v ≤ d.theirMaxWindowBits ∧
        d.clientParam p = ({ d with theirMaxWindowBits := max 9 v }, true)) ∨
      ∃ v, p.name = clientMaxWindowBits ∧ p.value.bind parseU8 = some v ∧
        d.clientParam p = ({ d with ourMaxWindowBits := min d.ourMaxWindowBits (max 9 v) }, true) := by
  unfold clientParam
  split_ifs with h₁ h₂ h₃ h₄
  · exact Or.inl rfl
  · exact Or.inl rfl
  · rcases hs : d.setTheirMaxWindowBits p (some d.theirMaxWindowBits) with _ | d'
    · exact Or.inl rfl
    · rcases setTheirMaxWindowBits_spec hs with ⟨-, rfl⟩ | ⟨v, -, -, hv, hx, rfl⟩
      · exact Or.inl rfl
      · exact Or.inr (Or.inl ⟨v, h₃, hv, hx _ rfl, rfl⟩)
  · rcases hv : p.value.bind parseU8 with _ | v
    · exact Or.inl rfl
    · dsimp only
      split_ifs with hr
      · exact Or.inl rfl
      · exact Or.inr (Or.inr ⟨v, h₄, rfl, rfl⟩)
  · exact Or.inl rfl

theorem InRange.serverParam {d : Deflate F} (h : InRange d) (p : Param) :
    InRange (d.serverParam p).1 := by
  rcases serverParam_cases d p with hs | ⟨-, b, hb, hs⟩ | ⟨-, v, -, hv, hs⟩ | ⟨-, hs⟩
  · rw [hs]
    exact h
  · rw [hs]
    refine ⟨h.our, ?_⟩
    rcases hb with rfl | ⟨v, hv, rfl⟩
    · exact h.their
    · simp only [UInt8.le_iff_toNat_le, toNat_max, UInt8.reduceToNat] at hv ⊢
      omega
  · rw [hs]
    rw [not_or, UInt8.not_lt, UInt8.not_lt] at hv
    exact ⟨hv, h.their⟩
  · rw [hs]
    exact ⟨h.our, h.their⟩

/-- The windows of a client `d'` that began as `d`. -/
structure Lowered (d d' : Deflate F) : Prop extends InRange d' where
  our_le : d'.ourMaxWindowBits ≤ d.ourMaxWindowBits
  their_le : d'.theirMaxWindowBits ≤ d.theirMaxWindowBits

theorem Lowered.refl {d : Deflate F} (h : InRange d) : Lowered d d :=
  ⟨h, UInt8.le_refl _, UInt8.le_refl _⟩

theorem Lowered.trans {d₁ d₂ d₃ : Deflate F} (h : Lowered d₁ d₂) (h' : Lowered d₂ d₃) :
    Lowered d₁ d₃ :=
  ⟨h'.toInRange, UInt8.le_trans h'.our_le h.our_le, UInt8.le_trans h'.their_le h.their_le⟩

theorem InRange.clientParam {d : Deflate F} (h : InRange d) (p : Param) :
    Lowered d (d.clientParam p).1 := by
  obtain ⟨⟨h₁, h₂⟩, h₃, h₄⟩ := h
  rcases clientParam_cases d p with hd | ⟨v, -, hv, hx, hd⟩ | ⟨v, -, -, hd⟩
  · rw [hd]
    exact Lowered.refl ⟨⟨h₁, h₂⟩, h₃, h₄⟩
  · rw [hd]
    refine ⟨⟨⟨h₁, h₂⟩, ?_, ?_⟩, UInt8.le_refl _, ?_⟩ <;>
      simp only [UInt8.le_iff_toNat_le, toNat_max, UInt8.reduceToNat] at * <;> omega
  · rw [hd]
    refine ⟨⟨⟨?_, ?_⟩, h₃, h₄⟩, ?_, UInt8.le_refl _⟩ <;>
      simp only [UInt8.le_iff_toNat_le, toNat_max, toNat_min, UInt8.reduceToNat] at * <;> omega

theorem InRange.walk_client {d : Deflate F} (h : InRange d) (ps : List Param) :
    Lowered d (walkParams Deflate.clientParam d ps).1 :=
  walkParams_keeps (fun _ p hd => hd.trans (hd.toInRange.clientParam p)) (Lowered.refl h) ps

/-! ## Configuring -/

/-- A client reads the answer, and is enabled when it has read all of it and the server has confirmed
that it takes no context over. -/
theorem configure_client_eq {d : Deflate F} (hm : d.mode = .client) (ps : List Param) :
    d.configure ps = (.ok (), { (walkParams clientParam d ps).1 with
      enabled := (walkParams clientParam d ps).1.enabled ||
        ((walkParams clientParam d ps).2 && ps.any (·.name = serverNoContextTakeover)) }) := by
  unfold configure
  split
  · next hs =>
    rw [hm] at hs
    cases hs
  · rcases walkParams clientParam d ps with ⟨d', _ | _⟩
    · simp
    · dsimp only
      split_ifs with hany
      · rw [hany]
        simp
      · simp [hany]

theorem InRange.configure {d : Deflate F} (h : InRange d) (ps : List Param) :
    InRange (d.configure ps).2 := by
  cases hm : d.mode with
  | server =>
    have hwalk : InRange (walkParams Deflate.serverParam d.cleared ps).1 :=
      walkParams_keeps (fun _ p hd => hd.serverParam p) (d := d.cleared) ⟨h.our, h.their⟩ ps
    rw [configure_server hm]
    exact ⟨hwalk.our, hwalk.their⟩
  | client =>
    have hwalk := (h.walk_client ps).toInRange
    rw [configure_client_eq hm]
    exact ⟨hwalk.our, hwalk.their⟩

theorem our_le_of_walk {d : Deflate F} (h : InRange d) {ps : List Param}
    (hw : (walkParams clientParam d ps).2 = true) {p : Param} (hp : p ∈ ps)
    (hname : p.name = clientMaxWindowBits) {v : UInt8} (hv : p.value.bind parseU8 = some v) :
    (walkParams clientParam d ps).1.ourMaxWindowBits ≤ max 9 v := by
  induction ps generalizing d with
  | nil => cases hp
  | cons q ps ih =>
    obtain ⟨hq, hw'⟩ := walkParams_cons_true.mp hw
    have hlow := h.clientParam q
    rw [walkParams_cons hq]
    rcases List.mem_cons.mp hp with rfl | hp
    · -- the window is lowered here, and not raised later
      refine UInt8.le_trans (hlow.toInRange.walk_client ps).our_le ?_
      have hne : ∀ name, name ≠ clientMaxWindowBits → p.name ≠ name := by
        rintro name hname' rfl
        exact hname' hname
      rw [Deflate.clientParam, if_neg (hne _ (by decide)), if_neg (hne _ (by decide)),
        if_neg (hne _ (by decide)), if_pos hname, hv] at hq ⊢
      dsimp only at hq ⊢
      split_ifs at hq ⊢ with hr
      change min d.ourMaxWindowBits (max 9 v) ≤ max 9 v
      rw [UInt8.le_iff_toNat_le, toNat_min]
      exact Nat.min_le_right _ _
    · exact ih hlow.toInRange hw' hp

/-- An extension after any calls of its setters with values they admit, and of `configure`. -/
inductive Reached : Deflate F → Prop
  | new (mode : Mode) : Reached (Deflate.new mode)
  | setMaxServerWindowBits {d d' : Deflate F} (h : Reached d) (max : UInt8)
      (hd : d.setMaxServerWindowBits max = some d') : Reached d'
  | setMaxClientWindowBits {d d' : Deflate F} (h : Reached d) (max : UInt8)
      (hd : d.setMaxClientWindowBits max = some d') : Reached d'
  | configure {d : Deflate F} (h : Reached d) (ps : List Param) : Reached (d.configure ps).2

theorem Reached.inRange {d : Deflate F} (h : Reached d) : InRange d := by
  have hsome : ∀ {m : UInt8}, 8 < m ∧ m ≤ 15 → 9 ≤ m ∧ m ≤ 15 := by
    intro m hm
    simp only [UInt8.le_iff_toNat_le, UInt8.lt_iff_toNat_lt, UInt8.reduceToNat] at hm ⊢
    omega
  induction h with
  | new mode =>
    have h₁₅ : (9 : UInt8) ≤ 15 ∧ (15 : UInt8) ≤ 15 := by decide
    exact ⟨h₁₅, h₁₅⟩
  | @setMaxServerWindowBits d d' _ m hd ih =>
    unfold Deflate.setMaxServerWindowBits at hd
    split_ifs at hd with hm
    cases hd
    exact ⟨ih.our, hsome hm.2⟩
  | @setMaxClientWindowBits d d' _ m hd ih =>
    unfold Deflate.setMaxClientWindowBits at hd
    split_ifs at hd with hm
    cases hd
    exact ⟨hsome hm.2, ih.their⟩
  | configure _ ps ih => exact ih.configure ps

end Deflate

/-- **The windows stay in range**, whatever the extension was set and configured to. Configuring a
client never raises one of its windows, and an answer that it has read to the end limits its own by
each value in it. -/
theorem windows_inRange {F : Flate} {d : Deflate F} (h : d.Reached) :
    (9 ≤ d.ourMaxWindowBits ∧ d.ourMaxWindowBits ≤ 15) ∧
    (9 ≤ d.theirMaxWindowBits ∧ d.theirMaxWindowBits ≤ 15) ∧
    (d.mode = .client → ∀ ps,
      (d.configure ps).2.ourMaxWindowBits ≤ d.ourMaxWindowBits ∧
      (d.configure ps).2.theirMaxWindowBits ≤ d.theirMaxWindowBits ∧
      ((Deflate.walkParams Deflate.clientParam d ps).2 = true → ∀ p ∈ ps,
        p.name = clientMaxWindowBits → ∀ v, p.value.bind parseU8 = some v →
          (d.configure ps).2.ourMaxWindowBits ≤ max 9 v)) := by
  have hr := h.inRange
  refine ⟨hr.our, hr.their, fun hm ps => ?_⟩
  have hlow := hr.walk_client ps
  rw [Deflate.configure_client_eq hm]
  exact ⟨hlow.our_le, hlow.their_le, fun hw p hp hname v hv => Deflate.our_le_of_walk hr hw hp hname hv⟩

/-- A client that was set to a window of 12 bits and has had an answer before uses one of 10 bits when the
next answer says so. -/
theorem windows_inRange_lowered :
    ∃ d d' : Deflate .stored, (Deflate.new .client).setMaxClientWindowBits 12 = some d ∧
      d' = (d.configure [Deflate.windowParam serverMaxWindowBits 11]).2 ∧ d'.theirMaxWindowBits = 11 ∧
      (9 ≤ d'.ourMaxWindowBits ∧ d'.ourMaxWindowBits ≤ 15) ∧
      (d'.configure [.new serverNoContextTakeover,
        Deflate.windowParam clientMaxWindowBits 10]).2.ourMaxWindowBits ≤ max 9 10 := by
  have hd : Deflate.Reached (_ : Deflate .stored) := .setMaxClientWindowBits (.new .client) 12 rfl
  obtain ⟨hour, -, hlow⟩ := windows_inRange
    (hd.configure [Deflate.windowParam serverMaxWindowBits 11])
  exact ⟨_, _, rfl, rfl, by decide, hour, (hlow rfl _).2.2 (by decide) _
    (List.mem_cons_of_mem _ List.mem_cons_self) rfl 10 (by decide)⟩

end Soketto
