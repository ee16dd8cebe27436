import Soketto.Atomicity

/-!
# What a peer hears

What a receiver without extensions makes of the frames that a connection without extensions writes:
data messages of a single frame, and control frames of any payload.

* `Outgoing.Plain cfg f`: such a frame, within the limits of the receiver. `Outgoing.StandsFor`: a
  frame that brings what another one does, when the receiver has extensions.
* `heard fs`: what calls report and append up to the first error; `replies fs`: the answers, and
  `batches` those of each call.
* `Unfinished cfg part`: the bytes are the beginning of a frame.
* **`receives_standsFor`**, **`receives_heard`**, **`Receiver.Ready.hears`**: calls on frames and the
  beginning of another amount to `heard` and end with an error.
-/

set_option autoImplicit false

namespace Soketto

open Incremental Chunked BigEndian

/-- A frame of a connection without extensions, within the limits of a peer. -/
structure Outgoing.Plain (cfg : Config) (f : Outgoing) : Prop where
  header : f.header = Header.new f.header.opcode
  not_reserved : f.header.opcode.isReserved = false
  not_continue : f.header.opcode ≠ .continue
  control_len : f.header.opcode.isControl = true → f.payload.length ≤ maxCtrlBodySize
  data_len : f.payload.length ≤ cfg.maxDataSize.toNat
  message_len : f.header.opcode.isControl = false → f.payload.length ≤ cfg.maxMessageSize.toNat

/-- A receiver whose extensions satisfy `Q` finds in the frame `g` what `f` brings. -/
structure Outgoing.StandsFor {E : Type} [Extension E] (cfg : Config) (Q : List E → Prop)
    (g f : Outgoing) : Prop where
  accepts (mode : Mode) (mask : UInt32) : cfg.codec.Accepts (g.sealed mode mask)
  fin : g.header.fin = true
  opcode : g.header.opcode = f.header.opcode
  not_continue : f.header.opcode ≠ .continue
  control (h : f.header.opcode.isControl = true) : g.payload = f.payload
  message_len (h : f.header.opcode.isControl = false) : g.payload.length ≤ cfg.maxMessageSize.toNat
  decode (h : f.header.opcode.isControl = false) (mode : Mode) (mask : UInt32) (st : Feed E)
    (hq : Q st.exts) : ∃ ext header, Q ext ∧ header.opcode = f.header.opcode ∧
      st.decode cfg (g.sealed mode mask) g.payload = ⟨.ok (), ext, header, f.payload⟩

namespace Outgoing

variable {mode : Mode} {mask : UInt32} {f g : Outgoing}

theorem fin_sealed (mode : Mode) (mask : UInt32) (f : Outgoing) :
    (f.sealed mode mask).fin = f.header.fin := by cases mode <;> rfl

theorem StandsFor.exists_frame {E : Type} [Extension E] {cfg : Config} {Q : List E → Prop}
    (h : g.StandsFor cfg Q f) (mode : Mode) (mask : UInt32) :
    ∃ G : Frame cfg, G.bytes = g.bytes mode mask ∧ G.payload = g.payload ∧
      G.header = g.sealed mode mask := by
  have hlen : (applyMask (g.sealed mode mask) g.payload).length = (g.sealed mode mask).payloadLen := by
    rw [length_applyMask, payloadLen_sealed]
  exact ⟨.ofHeader _ (h.accepts mode mask) _ hlen, rfl, applyMask_applyMask _ _, rfl⟩

theorem Plain.standsFor {E : Type} [Extension E] {cfg : Config} (h : f.Plain cfg)
    (hx : cfg.hasExtensions = false) : f.StandsFor cfg (fun _ : List E => True) f where
  accepts mode mask := by
    have hacc := accepts_sealed h.not_reserved h.control_len h.data_len mode mask
    rwa [← h.header] at hacc
  fin := by rw [h.header]; rfl
  opcode := rfl
  not_continue := h.not_continue
  control _ := rfl
  message_len := h.message_len
  decode _ mode mask st _ := ⟨st.exts, _, trivial, opcode_sealed _ _ _, Feed.decode_plain hx _ _ _⟩

end Outgoing

/-- What calls report up to the first error, with the bytes they append. -/
def heard : List Outgoing → List (Incoming × List UInt8)
  | [] => []
  | f :: fs =>
    match f.header.opcode with
    | .text | .binary =>
      (.data (.ofOpCode f.header.opcode f.payload.length), f.payload) :: heard fs
    | .ping => heard fs
    | .pong => (.pong f.payload, []) :: heard fs
    | .close =>
      match closeAnswer f.payload with
      | .ok (_, some reason) => [(.closed reason, [])]
      | _ => []
    | _ => []

theorem heard_close {payload : List UInt8} {fs : List Outgoing} {answer : Header}
    {reason : Option CloseReason} (h : closeAnswer payload = .ok (answer, reason)) :
    heard (⟨Header.new .close, payload⟩ :: fs) =
      (reason.map fun c => (Incoming.closed c, [])).toList := by
  simp only [heard, Header.new, h]
  cases reason <;> rfl

theorem heard_close_error {payload : List UInt8} {fs : List Outgoing} {e : Error}
    (h : closeAnswer payload = .error e) : heard (⟨Header.new .close, payload⟩ :: fs) = [] := by
  simp only [heard, Header.new, h]

/-- The answers up to the first close frame. -/
def replies : List Outgoing → List Outgoing
  | [] => []
  | f :: fs =>
    (answerTo f.header f.payload).toList ++ if f.header.opcode = .close then [] else replies fs

/-- The answers that each call writes, up to the one that fails; the first call has already answered
with `pending`. -/
def batches : List Outgoing → List Outgoing → List (List Outgoing)
  | pending, [] => [pending]
  | pending, f :: fs =>
    match f.header.opcode with
    | .text | .binary | .pong => pending :: batches [] fs
    | .ping => batches (pending ++ [⟨Header.new .pong, f.payload⟩]) fs
    | .close =>
      match closeAnswer f.payload with
      | .ok (answer, some reason) => [pending ++ [⟨answer, answerData (some reason)⟩], []]
      | .ok (answer, none) => [pending ++ [⟨answer, answerData none⟩]]
      | .error _ => [pending]
    | _ => [pending]

theorem flatMap_replies {cfg : Config} {pending fs : List Outgoing} (hfs : ∀ f ∈ fs, f.Plain cfg)
    {outs : List Outcome} (h : outs.map Outcome.replies = batches pending fs) :
    outs.flatMap Outcome.replies = pending ++ replies fs := by
  rw [List.flatMap_def, h]
  clear h
  induction fs generalizing pending with
  | nil => simp [batches, replies]
  | cons f fs ih =>
    obtain ⟨-, hres, hcont, -⟩ := hfs f List.mem_cons_self
    have ih' : ∀ p, (batches p fs).flatten = p ++ replies fs :=
      fun p => ih fun g hg => hfs g (List.mem_cons_of_mem f hg)
    rw [batches, replies, answerTo]
    cases hoc : f.header.opcode
    case close =>
      dsimp only
      rcases closeAnswer f.payload with e | ⟨answer, _ | r⟩ <;> simp
    case «continue» => exact absurd hoc hcont
    all_goals first
      | (rw [hoc] at hres; exact absurd hres (by decide))
      | simp only [List.flatten_cons, ih', Option.toList, reduceCtorEq, if_false, List.nil_append,
          List.append_assoc]

/-- The beginning of a frame, without its end. -/
def Unfinished (cfg : Config) (part : List UInt8) : Prop :=
  part = [] ∨ ∃ (g : Frame cfg) (more : List UInt8), more ≠ [] ∧ g.bytes = part ++ more

namespace Feed

variable {E : Type} [Extension E] {cfg : Config} {st : Feed E}

/-- **The beginning of a frame is not taken for a frame.** -/
theorem step_unfinished {part : List UInt8} (hp : Unfinished cfg part) (hst : st.stream = part)
    (l : Locals) :
    ∃ e st' m, st.step cfg l = .ret (.error e) st' m ∧ ¬InSync (.error e) ∧ st'.sent = st.sent := by
  rcases step_cases cfg st l with h | ⟨h, off, hd, htwo, hle, -⟩
  · exact h
  · exfalso
    rw [hst] at hd hle
    rcases hp with rfl | ⟨g, more, hmore, hg⟩
    · rw [List.length_nil] at hle
      omega
    · have h₁ := (Codec.exact_decodeHeader cfg.codec).done_append hd more
      have h₂ := g.decode_append []
      rw [List.append_nil, hg, h₁] at h₂
      cases h₂
      have hlen := g.length_bytes
      rw [hg, List.length_append] at hlen
      have := List.length_pos_of_ne_nil hmore
      omega

theorem step_closed (ho : st.isClosed = true) (l : Locals) :
    st.step cfg l = .ret (.error .closed) st l.message := by
  rw [step, if_pos ho]

/-- The calls from `st₀` on report what is heard of `fs` and end with an error; the first one has
already answered with `pending`. -/
def Hears (cfg : Config) (s : List UInt8) (st₀ : Feed E) (pending : List Outgoing)
    (fs : List Outgoing) : Prop :=
  ∃ outs last, Receives cfg s st₀ (outs ++ [last]) ∧
    (outs.map fun o => (o.result, o.appended)) = ((heard fs).map fun p => (.ok p.1, p.2)) ∧
    (∃ e, last.result = .error e) ∧ (outs ++ [last]).map Outcome.replies = batches pending fs

section

variable {st₀ : Feed E} {s : List UInt8} {pending : List Outgoing} {fs : List Outgoing}

theorem Hears.error {st' : Feed E} {e : Error} {m : List UInt8} {rs : List Outgoing}
    (hsteps : Steps cfg st₀ (.start []) st (.start []))
    (hret : st.step cfg (.start []) = .ret (.error e) st' m) (hsent : st'.sent = st₀.sent ++ rs)
    (hpos : InSync (.error e) → st'.stream <:+ s) (hh : heard fs = [])
    (hrs : batches pending fs = [rs]) : Hears cfg s st₀ pending fs := by
  refine ⟨[], ⟨.error e, m, rs, s.length - st'.stream.length⟩,
    ⟨st', .of_steps hsteps (.of_ret hret), hsent, fun hs => ⟨?_, Nat.sub_le _ _⟩, rfl⟩, ?_, ⟨e, rfl⟩,
    ?_⟩
  · exact List.suffix_iff_eq_drop.mp (hpos hs)
  · rw [hh]
    rfl
  · rw [hrs]
    rfl

theorem Hears.cons {p rest x : List UInt8} {st' : Feed E} {f : Outgoing} (g : Frame cfg)
    {i : Incoming} {rs : List Outgoing} (hsteps : Steps cfg st₀ (.start []) st (.start []))
    (hret : st.step cfg (.start []) = .ret (.ok i) st' x) (hs : s = p ++ (g.bytes ++ rest))
    (hrest : st'.stream = rest) (hsent : st'.sent = st₀.sent ++ rs)
    {gs : List Outgoing} (hheard : heard (f :: fs) = (i, x) :: heard gs)
    (hreplies : batches pending (f :: fs) = rs :: batches [] gs) (h : Hears cfg s st' [] gs) :
    Hears cfg s st₀ pending (f :: fs) := by
  obtain ⟨outs, last, h₁, h₂, h₃, h₄⟩ := h
  refine ⟨_ :: outs, last, receives_cons g hsteps hret hs hrest hsent h₁, ?_, h₃, ?_⟩
  · rw [List.map_cons, h₂, hheard]
    rfl
  · rw [List.cons_append, List.map_cons, h₄, hreplies]

end

theorem step_standsFor {Q : List E → Prop} {g f : Outgoing} (hg : g.StandsFor cfg Q f)
    (hkind : f.header.opcode = .text ∨ f.header.opcode = .binary) {mode : Mode} {mask : UInt32}
    {rest : List UInt8} (hst : st.stream = g.bytes mode mask ++ rest) (ho : st.isClosed = false)
    (hq : Q st.exts) :
    ∃ ext, Q ext ∧ st.step cfg (.start []) =
      .ret (.ok (.data (.ofOpCode f.header.opcode f.payload.length)))
        { st with stream := rest, exts := ext } f.payload := by
  obtain ⟨hctl, hne⟩ := isControl_of_text_or_binary hkind
  obtain ⟨G, hbytes, hpay, hheader⟩ := hg.exists_frame mode mask
  rw [← hbytes] at hst
  have hoc : G.header.opcode = f.header.opcode := by rw [hheader, Outgoing.opcode_sealed, hg.opcode]
  have hfin : G.header.fin = true := by rw [hheader, Outgoing.fin_sealed, hg.fin]
  have hmax : G.header.payloadLen ≤ cfg.maxMessageSize.toNat := by
    rw [← G.length_payload, hpay]
    exact hg.message_len hctl
  have hp : place none G.header = .single := by simp [place, hoc, hne, hfin]
  obtain ⟨ext, h, hq', hh, hdec⟩ := hg.decode hctl mode mask { st with stream := rest } hq
  rw [← hheader, ← hpay] at hdec
  have hsub : wrappingSub f.payload.length 0 = f.payload.length := by
    rw [wrappingSub, if_pos (Nat.zero_le _), Nat.sub_zero]
  refine ⟨ext, hq', ?_⟩
  rw [step_data G hst ho (by rw [hoc]; exact hctl) _ (by simp only [Locals.start]; omega), onData]
  simp only [Locals.start, hp, finish, List.nil_append, List.length_nil, hdec, hsub, hh]

/-- **Calls on frames that stand for others, and the beginning of a frame**, report what is heard of
the others. The call under way began at `st₀`. -/
theorem receives_standsFor {Q : List E → Prop} (mode : Mode) {gs fs : List Outgoing}
    (hgs : List.Forall₂ (fun g f => g.StandsFor cfg Q f) gs fs) {part : List UInt8}
    (hpart : Unfinished cfg part) {s p : List UInt8} {ms : List UInt32} {st₀ st : Feed E}
    {pending : List Outgoing} (hsteps : Steps cfg st₀ (.start []) st (.start []))
    (ho : st.isClosed = false) (hq : Q st.exts) (hs : s = p ++ st.stream)
    (hsent : st.sent = st₀.sent ++ pending)
    (hst : st.stream = Outgoing.encode mode ms gs ++ part) : Hears cfg s st₀ pending fs := by
  induction hgs generalizing p ms st₀ st pending with
  | nil =>
    obtain ⟨e, st', m, hret, hns, hsame⟩ := step_unfinished hpart hst (.start [])
    exact .error hsteps hret (hsame.trans hsent) (fun h => absurd h hns) rfl rfl
  | @cons g f gs fs hg _ ih =>
    -- what is left of the stream after the frame
    let rest := Outgoing.encode mode ms.tail gs ++ part
    obtain ⟨G, hbytes, hpay, hheader⟩ := hg.exists_frame mode (ms.headD 0)
    have hstream : st.stream = G.bytes ++ rest := by
      rw [hst, hbytes, Outgoing.encode, List.append_assoc]
    have hs' : s = p ++ (G.bytes ++ rest) := by rw [← hstream]; exact hs
    have hs'' : s = (p ++ G.bytes) ++ rest := by rw [hs', List.append_assoc]
    have hsuffix : rest <:+ s := ⟨p ++ G.bytes, hs''.symm⟩
    have hoc : G.header.opcode = f.header.opcode := by rw [hheader, Outgoing.opcode_sealed, hg.opcode]
    have hdata : f.header.opcode = .text ∨ f.header.opcode = .binary →
        heard (f :: fs) = (.data (.ofOpCode f.header.opcode f.payload.length), f.payload) :: heard fs →
        batches pending (f :: fs) = pending :: batches [] fs → Hears cfg s st₀ pending (f :: fs) := by
      intro hkind h₁ h₂
      obtain ⟨ext, hq', hstep⟩ := step_standsFor hg hkind (hbytes ▸ hstream) ho hq
      exact .cons G hsteps hstep hs' rfl hsent h₁ h₂ (ih (.refl _ _) ho hq' hs'' (by simp) rfl)
    have hcontrol : f.header.opcode.isControl = true →
        st.step cfg (.start []) = { st with stream := rest }.onControl G.header f.payload (.start []) := by
      intro hctl
      rw [step_control G hstream ho (by rw [hoc]; exact hctl), hpay, hg.control hctl]
    have hcont := hg.not_continue
    have hres : f.header.opcode.isReserved = false := by
      rw [← hoc]
      exact G.accepts.not_reserved
    obtain ⟨⟨fin, rsv1, rsv2, rsv3, masked, oc, mask, payloadLen⟩, payload⟩ := f
    dsimp only at hoc hdata hcontrol hcont hres
    cases oc with
    | text => exact hdata (Or.inl rfl) rfl rfl
    | binary => exact hdata (Or.inr rfl) rfl rfl
    | ping =>
      have hstep := hcontrol rfl
      rw [onControl, hoc] at hstep
      have hsent' : st.sent ++ [⟨Header.new .pong, payload⟩] =
          st₀.sent ++ (pending ++ [⟨Header.new .pong, payload⟩]) := by
        rw [hsent, List.append_assoc]
      exact ih (hsteps.trans (.single hstep)) ho hq hs'' hsent' rfl
    | pong =>
      have hstep := hcontrol rfl
      rw [onControl, hoc] at hstep
      exact .cons G hsteps hstep hs' rfl hsent rfl rfl (ih (.refl _ _) ho hq hs'' (by simp) rfl)
    | close =>
      have hstep := hcontrol rfl
      rw [onControl, hoc] at hstep
      have hheard : heard (⟨⟨fin, rsv1, rsv2, rsv3, masked, .close, mask, payloadLen⟩, payload⟩ :: fs) =
          match closeAnswer payload with
          | .ok (_, some reason) => (.closed reason, []) :: heard []
          | _ => [] := rfl
      have hbatches : batches pending
          (⟨⟨fin, rsv1, rsv2, rsv3, masked, .close, mask, payloadLen⟩, payload⟩ :: fs) =
          match closeAnswer payload with
          | .ok (answer, some reason) =>
            (pending ++ [⟨answer, answerData (some reason)⟩]) :: batches [] []
          | .ok (answer, none) => [pending ++ [⟨answer, answerData none⟩]]
          | .error _ => [pending] := rfl
      -- once closed, the calls fail
      have hclosed : ∀ {st : Feed E}, st.isClosed = true → st.step cfg (.start []) =
          .ret (.error .closed) st [] := fun h => step_closed h _
      have hsent' : ∀ f : Outgoing, st.sent ++ [f] = st₀.sent ++ (pending ++ [f]) :=
        fun f => by rw [hsent, List.append_assoc]
      rcases hca : closeAnswer payload with e | ⟨answer, _ | r⟩ <;>
        rw [hca] at hstep hheard hbatches
      · exact .error hsteps hstep hsent (fun _ => hsuffix) hheard hbatches
      · exact .error (hsteps.trans (.single hstep)) (hclosed rfl) (hsent' _) (fun _ => hsuffix)
          hheard hbatches
      · exact .cons G hsteps hstep hs' rfl (hsent' _) hheard hbatches
          (.error (.refl _ _) (hclosed rfl) (List.append_nil _).symm (fun _ => hsuffix) rfl rfl)
    | «continue» => exact absurd rfl hcont
    | _ => cases hres

/-- **Calls on plain frames and the beginning of another** report what is heard of them. The call
under way began at `st₀`. -/
theorem receives_heard (hx : cfg.hasExtensions = false) (mode : Mode) {fs : List Outgoing}
    (hfs : ∀ f ∈ fs, f.Plain cfg) {part : List UInt8} (hpart : Unfinished cfg part)
    {s p : List UInt8} {ms : List UInt32} {st₀ st : Feed E} {pending : List Outgoing}
    (hsteps : Steps cfg st₀ (.start []) st (.start [])) (ho : st.isClosed = false)
    (hs : s = p ++ st.stream) (hsent : st.sent = st₀.sent ++ pending)
    (hst : st.stream = Outgoing.encode mode ms fs ++ part) : Hears cfg s st₀ pending fs := by
  have hgs : List.Forall₂ (fun g f => Outgoing.StandsFor cfg (fun _ : List E => True) g f) fs fs :=
    List.forall₂_same.mpr fun f hf => (hfs f hf).standsFor hx
  exact receives_standsFor mode hgs hpart hsteps ho trivial hs hsent hst

end Feed

/-- **What the peer hears.** A ready receiver reads plain frames and then the beginning of one. Its
calls, whatever vectors they are given, report what is heard and then end with an error. -/
theorem Receiver.Ready.hears {E : Type} [Extension E] {r : Receiver} {v : World (List E)}
    (hr : r.Ready v) {mode : Mode} {masks : List UInt32} {fs : List Outgoing} {part : List UInt8}
    (hfs : ∀ f ∈ fs, f.Plain r.config) (hpart : Unfinished r.config part)
    (hst : r.stream = Outgoing.encode mode masks fs ++ part) (ms : List (List UInt8))
    (hms : ms.length = (heard fs).length + 1) :
    ∃ outs last, r.Receives r.stream v ms (outs ++ [last]) ∧
      (outs.map fun o => (o.result, o.appended)) = ((heard fs).map fun p => (.ok p.1, p.2)) ∧
      (∃ e, last.result = .error e) ∧ (outs ++ [last]).flatMap Outcome.replies = replies fs := by
  obtain ⟨outs, last, h₁, h₂, h₃, h₄⟩ := Feed.receives_heard hr.hasExtensions mode hfs hpart
    (.refl (Feed.ofReceiver r ([] : List E)) _) hr.isClosed (p := []) rfl (List.append_nil _).symm hst
  refine ⟨outs, last, Feed.sim_receives hr h₁ ?_, h₂, h₃, flatMap_replies hfs h₄⟩
  have hlen := congrArg List.length h₂
  rw [List.length_map, List.length_map] at hlen
  rw [hms, List.length_append, hlen, List.length_singleton]

end Soketto
