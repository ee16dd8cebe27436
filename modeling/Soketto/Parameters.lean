import Soketto.Windows

/-!
# Which parameters deflate accepts

A fresh extension is enabled when it has read all parameters it was configured with.

* `Deflate.ServerReads`, `Deflate.ClientReads`: the parameters after which the walk goes on.
  `Deflate.Accepts`: the lists after which the extension is enabled; **`enabled_iff`**.
* **`invalid_window_iff`**: a window that is no number in 8 ..= 15 makes the extension decline unless
  all parameters are read nevertheless.
* **`limits_honoured_iff`**: the server keeps to every limit of an offer it accepts unless a
  parameter is repeated.
-/

set_option autoImplicit false

namespace Soketto

open Handshake Text

namespace Deflate

variable {F : Flate}

/-! ## Single parameters -/

/-- A window that was parsed is one the RFC admits. -/
def Admits (low : UInt8) (p : Param) : Prop :=
  ∀ v, p.value.bind parseU8 = some v → low ≤ v ∧ v ≤ 15

/-- The parameters a server goes on after. -/
def ServerReads (p : Param) : Prop :=
  p.name = clientMaxWindowBits ∧ Admits 8 p ∨
    p.name = serverMaxWindowBits ∧ Admits 9 p ∧ (p.value.bind parseU8).isSome = true ∨
    p.name = clientNoContextTakeover ∨ p.name = serverNoContextTakeover

/-- The parameters a client goes on after, if a window of the server is not too large. -/
def ClientReads (p : Param) : Prop :=
  (p.name = clientMaxWindowBits ∨ p.name = serverMaxWindowBits) ∧ Admits 8 p ∨
    p.name = clientNoContextTakeover ∨ p.name = serverNoContextTakeover

theorem names_ne : clientMaxWindowBits ≠ serverMaxWindowBits ∧
    clientMaxWindowBits ≠ clientNoContextTakeover ∧ clientMaxWindowBits ≠ serverNoContextTakeover ∧
    serverMaxWindowBits ≠ clientNoContextTakeover ∧
    serverMaxWindowBits ≠ serverNoContextTakeover ∧
    clientNoContextTakeover ≠ serverNoContextTakeover := by decide

theorem admits_of_none {p : Param} (low : UInt8) (h : p.value.bind parseU8 = none) :
    Admits low p := by
  intro v hv
  rw [h] at hv
  cases hv

theorem admits_of_some {p : Param} {low v : UInt8} (h : p.value.bind parseU8 = some v) :
    Admits low p ↔ ¬(v < low ∨ 15 < v) := by
  rw [not_or, UInt8.not_lt, UInt8.not_lt]
  constructor
  · exact fun ha => ha v h
  · intro hv w hw
    rw [h] at hw
    cases hw
    exact hv

theorem setTheirMaxWindowBits_isSome (d : Deflate F) (p : Param) (expected : Option UInt8) :
    (d.setTheirMaxWindowBits p expected).isSome = true ↔
      Admits 8 p ∧ ∀ v, p.value.bind parseU8 = some v → ∀ x ∈ expected, v ≤ x := by
  unfold setTheirMaxWindowBits
  rcases hv : p.value.bind parseU8 with _ | v
  · exact ⟨fun _ => ⟨admits_of_none 8 hv, fun v hv => (by cases hv)⟩, fun _ => rfl⟩
  · rw [admits_of_some hv]
    dsimp only
    by_cases hr : v < 8 ∨ 15 < v
    · simp [hr]
    · cases expected with
      | none => simp [hr]
      | some x => by_cases hx : x < v <;> simp [hr, hx, ← UInt8.not_lt]

/-- **When a server goes on** after a parameter. -/
theorem serverParam_snd (d : Deflate F) (p : Param) :
    (d.serverParam p).2 = true ↔ ServerReads p := by
  obtain ⟨n₁, n₂, n₃, n₄, n₅, n₆⟩ := names_ne
  unfold serverParam ServerReads
  split_ifs with h₁ h₂ h₃ h₄
  · have hs := setTheirMaxWindowBits_isSome d p none
    simp only [Option.not_mem_none, false_imp_iff, implies_true, and_true] at hs
    simp only [h₁, n₁, n₂, n₃, true_and, false_and, or_false, ← hs]
    rcases d.setTheirMaxWindowBits p none with _ | d' <;> simp
  · simp only [h₂, n₁.symm, n₄, n₅, true_and, false_and, or_false, false_or]
    rcases hv : p.value.bind parseU8 with _ | v
    · simp
    · rw [admits_of_some hv]
      dsimp only
      split_ifs with hr <;> simp [hr]
  · simp [h₃]
  · simp [h₄]
  · simp [h₁, h₂, h₃, h₄]

/-- The window for the server, if the parameter is one that is parsed. -/
def serverWindow (p : Param) : Option UInt8 :=
  if p.name = serverMaxWindowBits then p.value.bind parseU8 else none

/-- **When a client goes on** after a parameter. -/
theorem clientParam_snd (d : Deflate F) (p : Param) :
    (d.clientParam p).2 = true ↔
      ClientReads p ∧ ∀ v ∈ serverWindow p, v ≤ d.theirMaxWindowBits := by
  obtain ⟨n₁, n₂, n₃, n₄, n₅, n₆⟩ := names_ne
  unfold clientParam ClientReads serverWindow
  split_ifs with h₁ h₂ h₃ h₄ h₅ h₆
  · exact absurd (h₂.symm.trans h₁) n₅
  · simp [h₁]
  · exact absurd (h₄.symm.trans h₃) n₄
  · simp [h₃]
  · have hs := setTheirMaxWindowBits_isSome d p (some d.theirMaxWindowBits)
    simp only [Option.mem_some_iff, forall_eq'] at hs
    simp only [h₅, n₁.symm, n₄, n₅, false_or, or_false, true_and, Option.mem_def, ← hs]
    rcases d.setTheirMaxWindowBits p (some d.theirMaxWindowBits) with _ | d' <;> simp
  · simp only [h₆, n₁, n₂, n₃, true_and, or_false, Option.not_mem_none, false_imp_iff, implies_true,
      and_true]
    rcases hv : p.value.bind parseU8 with _ | v
    · simp [admits_of_none 8 hv]
    · rw [admits_of_some hv]
      dsimp only
      split_ifs with hr <;> simp [hr]
  · simp [h₁, h₃, h₅, h₆]

/-- The window a client expects of the server after a parameter. -/
theorem clientParam_their {d : Deflate F} {p : Param} (h : (d.clientParam p).2 = true) :
    (d.clientParam p).1.theirMaxWindowBits =
      (serverWindow p).elim d.theirMaxWindowBits (max 9 ·) := by
  obtain ⟨n₁, n₂, n₃, n₄, n₅, n₆⟩ := names_ne
  unfold clientParam at h ⊢
  by_cases hname : p.name = serverMaxWindowBits
  · rw [hname, if_neg n₅, if_neg n₄, if_pos rfl] at h ⊢
    rw [serverWindow, if_pos hname]
    rcases hs : d.setTheirMaxWindowBits p (some d.theirMaxWindowBits) with _ | d'
    · rw [hs] at h
      cases h
    · rcases setTheirMaxWindowBits_spec hs with ⟨hv, rfl⟩ | ⟨v, hv, -, -, -, rfl⟩
      · rw [hv]
        rfl
      · rw [hv]
        rfl
  · rw [serverWindow, if_neg hname, if_neg hname, Option.elim_none]
    split_ifs
    · rfl
    · rfl
    · rcases p.value.bind parseU8 with _ | v
      · rfl
      · dsimp only
        split_ifs <;> rfl
    · rfl

/-! ## Lists of parameters -/

theorem walkParams_server_snd (d : Deflate F) (ps : List Param) :
    (walkParams serverParam d ps).2 = true ↔ ∀ p ∈ ps, ServerReads p := by
  induction ps generalizing d with
  | nil => simp [walkParams]
  | cons p ps ih => rw [walkParams_cons_true, serverParam_snd, ih, List.forall_mem_cons]

/-- No window is greater than one before it, which counts as 9 at least. -/
def NotRaised (vs : List UInt8) : Prop := vs.Pairwise fun v w => w ≤ max 9 v

/-- **When a client reads all parameters**: it goes on after each of them, and the windows for the
server are not raised. -/
theorem walkParams_client_snd {d : Deflate F} (hd : InRange d) (ps : List Param) :
    (walkParams clientParam d ps).2 = true ↔ (∀ p ∈ ps, ClientReads p) ∧
      (∀ v ∈ ps.filterMap serverWindow, v ≤ d.theirMaxWindowBits) ∧
      NotRaised (ps.filterMap serverWindow) := by
  induction ps generalizing d with
  | nil => simp [walkParams, NotRaised]
  | cons p ps ih =>
    rw [walkParams_cons_true, List.forall_mem_cons]
    have hlow := (hd.clientParam p).toInRange
    have hrest := fun h : (d.clientParam p).2 = true => clientParam_their h ▸ ih hlow
    rw [and_congr_right hrest, clientParam_snd]
    rcases hw : serverWindow p with _ | v
    · rw [List.filterMap_cons_none hw]
      simp [and_assoc]
    · have hmax : v ≤ d.theirMaxWindowBits → max 9 v ≤ d.theirMaxWindowBits := by
        have := hd.their.1
        simp only [UInt8.le_iff_toNat_le, toNat_max, UInt8.reduceToNat] at this ⊢
        omega
      have hcons : NotRaised (v :: ps.filterMap serverWindow) ↔
          (∀ w ∈ ps.filterMap serverWindow, w ≤ max 9 v) ∧ NotRaised (ps.filterMap serverWindow) :=
        List.pairwise_cons
      rw [List.filterMap_cons_some hw, List.forall_mem_cons, hcons]
      simp only [Option.mem_some_iff, forall_eq', Option.elim_some]
      constructor
      · rintro ⟨⟨hp, hv⟩, hps, hle, hpair⟩
        exact ⟨⟨hp, hps⟩, ⟨hv, fun w hw => UInt8.le_trans (hle w hw) (hmax hv)⟩, hle, hpair⟩
      · rintro ⟨⟨hp, hps⟩, ⟨hv, -⟩, hle, hpair⟩
        exact ⟨⟨hp, hv⟩, hps, hle, hpair⟩

/-- The parameters after which a fresh extension is enabled. -/
def Accepts : Mode → List Param → Prop
  | .server, ps => ∀ p ∈ ps, ServerReads p
  | .client, ps => (∀ p ∈ ps, ClientReads p) ∧ NotRaised (ps.filterMap serverWindow) ∧
      ∃ p ∈ ps, p.name = serverNoContextTakeover

/-- **When a fresh extension is enabled.** -/
theorem enabled_iff (F : Flate) (mode : Mode) (ps : List Param) :
    ((Deflate.new mode : Deflate F).configure ps).2.enabled = true ↔ Accepts mode ps := by
  cases mode with
  | server =>
    have hnew : (Deflate.new .server : Deflate F).enabled = false := rfl
    rw [configure_server rfl, hnew, Bool.false_or, walkParams_server_snd]
    rfl
  | client =>
    have hr : InRange (Deflate.new .client : Deflate F) := (Reached.new .client).inRange
    have hoff : (walkParams clientParam (Deflate.new .client : Deflate F) ps).1.enabled = false :=
      walkParams_keeps (P := fun d => d.enabled = false) (fun d p hd => by
        rcases clientParam_cases d p with h | ⟨v, -, -, -, h⟩ | ⟨v, -, -, h⟩ <;> rw [h] <;> exact hd)
        rfl ps
    have hle : (∀ p ∈ ps, ClientReads p) → ∀ v ∈ ps.filterMap serverWindow,
        v ≤ (Deflate.new .client : Deflate F).theirMaxWindowBits := by
      intro h v hv
      obtain ⟨p, hp, hv⟩ := List.mem_filterMap.mp hv
      unfold serverWindow at hv
      split_ifs at hv with hname
      obtain ⟨n₁, n₂, n₃, n₄, n₅, n₆⟩ := names_ne
      rcases h p hp with ⟨-, ha⟩ | hn | hn
      · exact (ha v hv).2
      · exact absurd (hname.symm.trans hn) n₄
      · exact absurd (hname.symm.trans hn) n₅
    rw [configure_client_eq rfl, hoff, Bool.false_or, Bool.and_eq_true, walkParams_client_snd hr,
      List.any_eq_true]
    simp only [decide_eq_true_eq, Accepts]
    constructor
    · rintro ⟨⟨h₁, -, h₂⟩, h₃⟩
      exact ⟨h₁, h₂, h₃⟩
    · rintro ⟨h₁, h₂, h₃⟩
      exact ⟨⟨h₁, hle h₁, h₂⟩, h₃⟩

/-- The parameter is a window whose value is not the decimal representation of a number in
8 ..= 15. -/
def InvalidWindow (p : Param) : Prop :=
  (p.name = serverMaxWindowBits ∨ p.name = clientMaxWindowBits) ∧
    ∃ s, p.value = some s ∧ ∀ n : ℕ, 8 ≤ n → n ≤ 15 → s ≠ toString n

end Deflate

/-- **When an invalid window makes the extension decline**: unless all parameters are read to the end
nevertheless. -/
theorem invalid_window_iff (F : Flate) (mode : Mode) (ps : List Param) :
    ((∃ p ∈ ps, Deflate.InvalidWindow p) →
      ((Deflate.new mode : Deflate F).configure ps).2.enabled = false) ↔
    ¬((∃ p ∈ ps, Deflate.InvalidWindow p) ∧ Deflate.Accepts mode ps) := by
  rw [← Deflate.enabled_iff F, not_and, Bool.not_eq_true]

/-- A server accepts a window of 300 bits for the client. -/
theorem not_invalid_window :
    ¬∀ (F : Flate) (mode : Mode) (ps : List Param), (∃ p ∈ ps, Deflate.InvalidWindow p) →
      ((Deflate.new mode : Deflate F).configure ps).2.enabled = false := by
  intro h
  have hvalue : ∀ n : ℕ, n < 16 → "300" ≠ toString n := by decide
  have hinvalid : Deflate.InvalidWindow ⟨"client_max_window_bits", some "300"⟩ :=
    ⟨Or.inr rfl, "300", rfl, fun n _ h => hvalue n (by omega)⟩
  have := h .stored .server [⟨"client_max_window_bits", some "300"⟩]
    ⟨_, List.mem_cons_self, hinvalid⟩
  exact absurd this (by decide)

/-! ## The limits of an offer -/

namespace Deflate

variable {F : Flate}

/-- The names of the parameters that a server answers. -/
def answeredNames (ps : List Param) : List String :=
  (ps.map Param.name).filter (· ≠ clientMaxWindowBits)

theorem answeredNames_cons (p : Param) (ps : List Param) :
    answeredNames (p :: ps) = answeredNames [p] ++ answeredNames ps :=
  List.filter_append [p.name] (ps.map Param.name)

theorem names_serverParam {d : Deflate F} {p : Param} (h : (d.serverParam p).2 = true) :
    (d.serverParam p).1.params.map Param.name = d.params.map Param.name ++ answeredNames [p] := by
  obtain ⟨n₁, n₂, n₃, n₄, n₅, n₆⟩ := names_ne
  unfold answeredNames
  rcases serverParam_cases d p with hs | ⟨hn, b, -, hs⟩ | ⟨hn, v, -, -, hs⟩ | ⟨hn, hs⟩
  · rw [hs] at h
    cases h
  · simp [hs, hn]
  · simp [hs, hn, n₁.symm, windowParam, Param.new, Param.setValue]
  · rcases hn with hn | hn
    · simp [hs, hn, n₂.symm, Param.new]
    · simp [hs, hn, n₃.symm, Param.new]

/-- **The names in an answer** to an offer that was read to the end. -/
theorem names_walk {d : Deflate F} {ps : List Param} (h : (walkParams serverParam d ps).2 = true) :
    (walkParams serverParam d ps).1.params.map Param.name =
      d.params.map Param.name ++ answeredNames ps := by
  induction ps generalizing d with
  | nil => simp [walkParams, answeredNames]
  | cons p ps ih =>
    obtain ⟨hp, hw⟩ := walkParams_cons_true.mp h
    rw [walkParams_cons hp, ih hw, names_serverParam hp, List.append_assoc, ← answeredNames_cons]

theorem our_serverParam {d : Deflate F} {p : Param} (h : (d.serverParam p).2 = true) :
    (d.serverParam p).1.ourMaxWindowBits = (serverWindow p).getD d.ourMaxWindowBits := by
  obtain ⟨n₁, n₂, n₃, n₄, n₅, n₆⟩ := names_ne
  unfold serverWindow
  rcases serverParam_cases d p with hs | ⟨hn, b, -, hs⟩ | ⟨hn, v, hv, -, hs⟩ | ⟨hn, hs⟩
  · rw [hs] at h
    cases h
  · rw [hs, hn, if_neg n₁, Option.getD_none]
  · rw [hs, hn, if_pos rfl, hv, Option.getD_some]
  · rw [hs]
    rcases hn with hn | hn
    · rw [hn, if_neg n₄.symm, Option.getD_none]
    · rw [hn, if_neg n₅.symm, Option.getD_none]

theorem our_walk_of_none {d : Deflate F} {ps : List Param}
    (h : (walkParams serverParam d ps).2 = true) (hno : ∀ p ∈ ps, serverWindow p = none) :
    (walkParams serverParam d ps).1.ourMaxWindowBits = d.ourMaxWindowBits := by
  induction ps generalizing d with
  | nil => rfl
  | cons p ps ih =>
    obtain ⟨hp, hw⟩ := walkParams_cons_true.mp h
    obtain ⟨hno₁, hno₂⟩ := List.forall_mem_cons.mp hno
    rw [walkParams_cons hp, ih hw hno₂, our_serverParam hp, hno₁, Option.getD_none]

theorem mem_answeredNames {p : Param} {ps : List Param} (hp : p ∈ ps) {v : UInt8}
    (hv : serverWindow p = some v) : serverMaxWindowBits ∈ answeredNames ps := by
  unfold serverWindow at hv
  split_ifs at hv with hname
  refine List.mem_filter.mpr ⟨List.mem_map.mpr ⟨p, hp, hname⟩, ?_⟩
  exact decide_eq_true names_ne.1.symm

/-- The window of a server is the one in the offer, if no parameter is repeated. -/
theorem our_walk {d : Deflate F} {ps : List Param} (h : (walkParams serverParam d ps).2 = true)
    (hnodup : (answeredNames ps).Nodup) :
    ∀ v ∈ ps.filterMap serverWindow, (walkParams serverParam d ps).1.ourMaxWindowBits = v := by
  induction ps generalizing d with
  | nil =>
    intro v hv
    cases hv
  | cons p ps ih =>
    obtain ⟨hp, hw⟩ := walkParams_cons_true.mp h
    rw [answeredNames_cons] at hnodup
    obtain ⟨-, htail, hdisj⟩ := List.nodup_append.mp hnodup
    intro v hv
    rw [walkParams_cons hp]
    rcases hwin : serverWindow p with _ | w
    · rw [List.filterMap_cons_none hwin] at hv
      exact ih hw htail v hv
    · -- no later parameter sets the window
      have hno : ∀ q ∈ ps, serverWindow q = none := by
        intro q hq
        rcases hq' : serverWindow q with _ | u
        · rfl
        · exact absurd rfl (hdisj _ (mem_answeredNames List.mem_cons_self hwin) _
            (mem_answeredNames hq hq'))
      have hnil : ps.filterMap serverWindow = [] := List.filterMap_eq_nil_iff.mpr hno
      rw [List.filterMap_cons_some hwin, hnil, List.mem_singleton] at hv
      rw [our_walk_of_none hw hno, our_serverParam hp, hwin, hv, Option.getD_some]

/-- The server keeps to the limits of the offer: its answer has no parameter twice, and its window is
at most each one that is asked for. -/
structure HonoursLimits (o : List Param) (d : Deflate F) : Prop where
  nodup : (d.params.map Param.name).Nodup
  window : ∀ p ∈ o, p.name = serverMaxWindowBits → ∀ v, p.value.bind parseU8 = some v →
    d.ourMaxWindowBits ≤ v

end Deflate

/-- **When the server keeps to every limit of an offer it accepts**: no parameter, other than the
client's window, is in the offer twice. -/
theorem limits_honoured_iff {F : Flate} {o : List Param}
    (h : ((Deflate.new .server : Deflate F).configure o).2.enabled = true) :
    Deflate.HonoursLimits o ((Deflate.new .server : Deflate F).configure o).2 ↔
      ((o.map Param.name).filter (· ≠ clientMaxWindowBits)).Nodup := by
  have hw : (Deflate.walkParams Deflate.serverParam (Deflate.new .server : Deflate F).cleared o).2 =
      true := (Deflate.walkParams_server_snd _ o).mpr ((Deflate.enabled_iff F .server o).mp h)
  have hnames := Deflate.names_walk hw
  rw [Deflate.configure_server rfl]
  constructor
  · intro hh
    have hn := hh.nodup
    rw [hnames] at hn
    exact hn
  · intro hn
    refine ⟨?_, fun p hp hname v hv => ?_⟩
    · rw [hnames]
      exact hn
    · have hwin : Deflate.serverWindow p = some v := by rw [Deflate.serverWindow, if_pos hname, hv]
      exact UInt8.le_of_eq (Deflate.our_walk hw hn v (List.mem_filterMap.mpr ⟨p, hp, hwin⟩))

/-- An offer with a window of 10 bits for the server, and other parameters around it. -/
theorem limits_honoured_iff_once :
    let o : List Param := [⟨"client_max_window_bits", none⟩, ⟨"server_no_context_takeover", none⟩,
      ⟨"server_max_window_bits", some "10"⟩, ⟨"client_no_context_takeover", none⟩]
    let d := ((Deflate.new .server : Deflate .stored).configure o).2
    d.enabled = true ∧ Deflate.HonoursLimits o d ∧ d.ourMaxWindowBits = 10 :=
  ⟨by decide, (limits_honoured_iff (by decide)).mpr (by decide), by decide⟩

/-- A server that was asked for 10 bits and then for 15 bits uses 15. -/
theorem not_limits_honoured :
    ¬∀ (F : Flate) (o : List Param),
      ((Deflate.new .server : Deflate F).configure o).2.enabled = true →
        Deflate.HonoursLimits o ((Deflate.new .server : Deflate F).configure o).2 := by
  intro h
  have hh := h .stored [⟨"server_max_window_bits", some "10"⟩, ⟨"server_max_window_bits", some "15"⟩]
    (by decide)
  exact absurd (hh.window _ List.mem_cons_self rfl 10 (by decide)) (by decide)

end Soketto
