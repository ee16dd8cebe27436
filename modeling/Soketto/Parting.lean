import Soketto.Closing
import Soketto.Listening

/-!
# Reading on after closing

A receiver whose own sender has closed the connection: nothing can be written any more, and the peer
goes on until it has answered.

* `Receiver.exists_receiveRound`: a round without an answer has no effect but its result.
* `next_control`: the payload of a control frame is read.
* **`hears_parted`**: the calls report what is heard of the frames before the first ping, and then
  fail; they write nothing.
-/

set_option autoImplicit false

namespace Soketto

open Incremental Chunked

theorem run_write_parted {σ : Type} {w : World σ} (hw : w.Parted) (mode : Mode) (codec : Codec)
    (header : Header) (data : Storage) (mb : List UInt8) :
    ((write mode codec header data mb).run w).1.result = .error .closed := by
  have hrefused := fun bs => (show World.Parted
    { w with randoms := leftRandoms mode 1 w.randoms } from ⟨hw.closed, hw.outcomes⟩).writeAll bs
  unfold write
  simp only [Fiber.run_bind, run_sealHeader, Fiber.run_lock, Fiber.run_writeAll, hrefused,
    Bool.false_eq_true, if_false, Fiber.run_pure]

/-! ## Rounds -/

section Rounds

variable {E : Type} [Extension E]

/-- Without extensions, a round that has no answer to write has no effect but its result. -/
theorem Receiver.exists_receiveRound {self : Receiver} (hx : self.hasExtensions = false)
    (ha : self.answer = none) (l : Locals) :
    ∃ out, (self.receiveRound l : Fiber (List E) (Option Round)) = pure out := by
  unfold receiveRound
  unfold answer at ha
  by_cases hc : self.isClosed = true
  · rw [if_pos hc]
    exact ⟨_, rfl⟩
  rw [if_neg hc] at ha ⊢
  rcases hh : ({ self with ctrlBuffer := [] } : Receiver).receiveHeader with _ | ⟨e | header, r₁⟩ <;>
    rw [hh] at ha
  · exact ⟨_, rfl⟩
  · exact ⟨_, rfl⟩
  dsimp only at ha ⊢
  split_ifs at ha ⊢ with hctl
  · unfold controlFrame
    unfold controlAnswer at ha
    rcases hr : r₁.readBuffer header with ⟨e | u, r₂⟩ <;> rw [hr] at ha
    · exact ⟨_, rfl⟩
    dsimp only at ha ⊢
    split_ifs
    · exact ⟨_, rfl⟩
    · unfold onControl
      unfold answerTo at ha
      cases hoc : header.opcode <;> rw [hoc] at ha
      case ping => cases ha
      case close =>
        dsimp only at ha ⊢
        rcases hca : closeAnswer (applyMask header (r₂.buffer.take header.payloadLen))
          with e | ⟨answer, reason⟩ <;> rw [hca] at ha
        · exact ⟨_, rfl⟩
        · cases ha
      all_goals exact ⟨_, rfl⟩
  · have hext : r₁.hasExtensions = false := by
      obtain ⟨_, _, rfl⟩ := (reads_receiveHeaderLoop _ _ hh).1
      exact hx
    obtain ⟨out, hout⟩ := exists_dataFrame (E := E) hext header l
    exact ⟨some out, by rw [hout]; rfl⟩

end Rounds

namespace Feed

variable {E : Type} {r₀ r : Receiver} {w₀ w v : World (List E)} {st : Feed E} {cfg : Config}

/-- The payload of the control frame that comes next is read. -/
theorem next_control (hT : Tracks r₀ w₀ r w st) (g : Frame r₀.config) {rest : List UInt8}
    (hst : st.stream = g.bytes ++ rest) (ho : st.isClosed = false) :
    ∃ r₁ r₂, ({ r with ctrlBuffer := [] } : Receiver).receiveHeader = some (.ok g.header, r₁) ∧
      r₁.readBuffer g.header = (.ok (), r₂) ∧ r₂.isClosed = false ∧
      applyMask g.header (r₂.buffer.take g.header.payloadLen) = g.payload := by
  have hT₀ : Tracks r₀ w₀ { r with ctrlBuffer := [] } w st := hT.congr rfl rfl rfl rfl
  have hdec : ({ r with ctrlBuffer := [] } : Receiver).config.codec.decodeHeader.run
      ({ r with ctrlBuffer := [] } : Receiver).stream =
        .ok (.done g.header g.head.length) := by
    rw [hT₀.config, hT₀.stream, hst]
    exact g.decode_append rest
  obtain ⟨r₁, hr₁, hat₁⟩ := (Receiver.receiveHeader_spec hT₀.at_pos.clean).done hdec
  have hle : g.head.length ≤ st.stream.length := by
    rw [hst, List.length_append, g.length_bytes]
    omega
  have hT₁ := hT₀.advance hat₁ hle
  have hbody : st.stream.drop g.head.length = g.body ++ rest := by
    rw [hst, Frame.bytes, List.append_assoc, List.drop_left]
  obtain ⟨r₂, hr₂, htake, hat₂⟩ := Receiver.readBuffer_of_le hT₁.at_pos.clean g.header (by
    rw [hT₁.stream, hbody, List.length_append, g.length_body]
    exact Nat.le_add_right _ _)
  refine ⟨r₁, r₂, hr₁, hr₂, ?_, ?_⟩
  · exact hat₂.isClosed.trans (hT₁.isClosed.trans ho)
  · rw [htake, hT₁.stream, hbody, ← g.length_body, List.take_left]
    rfl

variable [Extension E]

theorem receive_of_quiet (hx : r₀.hasExtensions = false) (hw₀ : w₀.Healthy)
    (hT : Tracks r₀ w₀ r v st) {result : Except Error Incoming} {st' : Feed E} {x : List UInt8}
    (hstep : st.step r₀.config (.start []) = .ret result st' x) (hsent : st'.sent = st.sent)
    (m : List UInt8) (w : World (List E)) :
    ∃ r', (r.receive m).run w = (some ⟨result, r', m ++ x⟩, w) ∧
      (InSync result → Tracks r₀ w₀ r' v st') := by
  have hstep' : st.step r₀.config (.start m) = .ret result st' (m ++ x) := by
    rw [start_eq_under, step_under hx, hstep]
    rfl
  have hans : r.answer = none := by
    have h := sent_step hT (.start m)
    rw [hstep'] at h
    exact Option.toList_eq_nil_iff.mp (List.append_right_eq_self.mp (h.symm.trans hsent))
  obtain ⟨out, hout⟩ := Receiver.exists_receiveRound (E := E) (hasExtensions_of_tracks hx hT) hans
    (.start m)
  obtain ⟨round, v', hrun, hsim⟩ := sim_receiveRound hT (.start m)
  rw [hout] at hrun
  obtain ⟨rfl, rfl⟩ := Prod.mk.injEq .. ▸ hrun
  rw [hstep'] at hsim
  cases hsim with
  | @ret r' _ _ _ _ hT' =>
    refine ⟨r', Comes.receive_ret .refl ?_, hT'⟩
    rw [hout]
    rfl
  | broken h => exact absurd hw₀ h

/-- A ping cannot be answered. -/
theorem receive_ping (hw : w.Parted) (hT : Tracks r₀ w₀ r v st) (g : Frame r₀.config)
    {rest : List UInt8} (hst : st.stream = g.bytes ++ rest) (ho : st.isClosed = false)
    (hoc : g.header.opcode = .ping) (m : List UInt8) :
    ∃ r' w', (r.receive m).run w = (some ⟨.error .closed, r', m⟩, w') := by
  obtain ⟨r₁, r₂, hh, hr, -, -⟩ := next_control hT g hst ho
  have hopen : ¬r.isClosed = true := by
    rw [hT.isClosed, ho]
    exact Bool.false_ne_true
  have hround : ∃ r' w', (r.receiveRound (.start m)).run w =
      (some (.ret (.error .closed) r' m), w') := by
    unfold Receiver.receiveRound
    rw [if_neg hopen, hh]
    have hctl : g.header.opcode.isControl = true := by rw [hoc]; rfl
    have hpong : g.header.opcode ≠ .pong := by rw [hoc]; decide
    have hres := run_write_parted hw r₂.mode r₂.codec (Header.new .pong)
      (.unique (applyMask g.header (r₂.buffer.take g.header.payloadLen))) []
    dsimp only
    rw [if_pos hctl, Fiber.run_bind, Receiver.controlFrame, hr]
    dsimp only
    rw [if_neg hpong, Fiber.run_bind, Receiver.onControl, hoc]
    dsimp only
    rw [Fiber.run_bind, hres]
    exact ⟨_, _, rfl⟩
  obtain ⟨r', w', hround⟩ := hround
  exact ⟨r', w', Comes.receive_ret .refl hround⟩

omit [Extension E] in
theorem takenClose_of_tracks (hT : Tracks r₀ w₀ r w st) (g : Frame r₀.config) {rest : List UInt8}
    (hst : st.stream = g.bytes ++ rest) (ho : st.isClosed = false)
    (hoc : g.header.opcode = .close) : r.takenClose = some g.payload := by
  obtain ⟨r₁, r₂, hh, hr, -, hp⟩ := next_control hT g hst ho
  have hopen : ¬r.isClosed = true := by
    rw [hT.isClosed, ho]
    exact Bool.false_ne_true
  rw [Receiver.takenClose, if_neg hopen, hh]
  dsimp only
  rw [if_pos hoc, hr, ← hp]

theorem receive_close (hw : w.Parted) (hT : Tracks r₀ w₀ r v st) (hsh : w.shared = st.exts)
    (g : Frame r₀.config) {rest : List UInt8} (hst : st.stream = g.bytes ++ rest)
    (ho : st.isClosed = false) (hoc : g.header.opcode = .close) {answer : Header}
    {reason : Option CloseReason} (hca : closeAnswer g.payload = .ok (answer, reason))
    (m : List UInt8) :
    ∃ r' w', r'.isClosed = true ∧ r'.stream = rest ∧
      (r.receive m).run w = (some ⟨reason.elim (.error .closed) (.ok <| .closed ·), r', m⟩, w') := by
  have hflush : FlushesAfterFrame w := by
    rw [FlushesAfterFrame, afterFrame, if_pos hw.closed, hw.outcomes]
    rfl
  -- the world is not healthy, so that nothing need be known of it
  have hT' : Tracks r₀ w r w st :=
    ⟨hT.at_pos, hT.suffix, hsh, fun h => absurd h fun hh => by cases hw.closed.symm.trans hh.closed⟩
  have hstep := step_control g hst ho (by rw [hoc]; rfl) (.start m)
  rw [onControl, hoc] at hstep
  dsimp only at hstep
  rw [hca] at hstep
  obtain ⟨out, w', hrun, hsim⟩ := sim_receiveRound hT' (.start m)
  rcases run_close_round (takenClose_of_tracks hT g hst ho hoc) (.start m) w with
    ⟨e, s', v', hca', -⟩ | ⟨answer', reason', s', v', hca', ⟨-, hcl, hround⟩ | ⟨hno, -⟩⟩
  · cases hca.symm.trans hca'
  · cases hca.symm.trans hca'
    obtain ⟨hout, rfl⟩ := Prod.mk.injEq .. ▸ hround.symm.trans hrun
    obtain rfl := Option.some.inj hout
    rw [hstep] at hsim
    cases reason with
    | none =>
      cases hsim with
      | again hT'' =>
        refine ⟨s', v', hcl, hT''.stream, Comes.receive_ret (.tail .refl hround) ?_⟩
        rw [Receiver.receiveRound, if_pos hcl]
        rfl
    | some c =>
      cases hsim with
      | ret hT'' => exact ⟨s', v', hcl, (hT'' trivial).stream, Comes.receive_ret .refl hround⟩
  · exact absurd hflush hno

end Feed

/-! ## Calls -/

/-- The calls report `xs` and then fail, and write nothing. -/
def Receiver.HearsOnly {E : Type} [Extension E] (s : List UInt8) (r : Receiver) (w : World (List E))
    (vs : List (List UInt8)) (xs : List (Incoming × List UInt8)) : Prop :=
  ∃ outs last, r.Receives s w vs (outs ++ [last]) ∧
    (outs.map fun o => (o.result, o.appended)) = (xs.map fun p => (.ok p.1, p.2)) ∧
    (∃ e, last.result = .error e) ∧ ∀ o ∈ outs ++ [last], o.replies = []

section HearsOnly

variable {E : Type} [Extension E] {s : List UInt8} {r r' : Receiver} {w w' : World (List E)}
  {vs : List (List UInt8)} {xs : List (Incoming × List UInt8)} {m x : List UInt8}

theorem Receiver.HearsOnly.error {e : Error}
    (hrun : (r.receive m).run w = (some ⟨.error e, r', m ++ x⟩, w')) (hwire : w'.wire = w.wire)
    (hpos : InSync (.error e) → r'.stream <:+ s) : r.HearsOnly s w [m] [] := by
  refine ⟨[], ⟨.error e, x, [], s.length - r'.stream.length⟩, ⟨r', w', hrun, ?_, fun hs => ?_, rfl, rfl⟩,
    rfl, ⟨e, rfl⟩, fun o ho => ?_⟩
  · exact hwire.trans (List.append_nil _).symm
  · exact ⟨List.suffix_iff_eq_drop.mp (hpos hs), Nat.sub_le _ _⟩
  · obtain rfl := List.mem_singleton.mp ho
    rfl

theorem Receiver.HearsOnly.closed (hw : w.Parted)
    (hrun : (r.receive m).run w = (some ⟨.error .closed, r', m⟩, w')) :
    r.HearsOnly s w [m] [] := by
  have hwire := (hw.run (r.receive m)).2
  rw [hrun] at hwire
  exact .error (e := .closed) (x := []) (by rw [List.append_nil]; exact hrun) hwire (by intro h; cases h)

theorem Receiver.HearsOnly.cons {i : Incoming}
    (hrun : (r.receive m).run w = (some ⟨.ok i, r', m ++ x⟩, w')) (hwire : w'.wire = w.wire)
    (hpos : r'.stream <:+ s) (h : r'.HearsOnly s w' vs xs) : r.HearsOnly s w (m :: vs) ((i, x) :: xs) := by
  obtain ⟨outs, last, h₁, h₂, h₃, h₄⟩ := h
  refine ⟨⟨.ok i, x, [], s.length - r'.stream.length⟩ :: outs, last,
    ⟨r', w', hrun, hwire.trans (List.append_nil _).symm, fun _ =>
      ⟨List.suffix_iff_eq_drop.mp hpos, Nat.sub_le _ _⟩, h₁⟩, ?_, h₃, fun o ho => ?_⟩
  · rw [List.map_cons, List.map_cons, h₂]
  · rcases List.mem_cons.mp ho with rfl | ho
    · rfl
    · exact h₄ o ho

end HearsOnly

/-- The frames before the first ping. -/
def beforePing (fs : List Outgoing) : List Outgoing := fs.takeWhile (·.header.opcode ≠ .ping)

theorem beforePing_cons {f : Outgoing} (h : f.header.opcode ≠ .ping) (fs : List Outgoing) :
    beforePing (f :: fs) = f :: beforePing fs := by
  rw [beforePing, List.takeWhile_cons_of_pos (by simpa using h)]
  rfl

/-- **Reading on after closing.** The writer of a receiver is closed. Its calls, whatever vectors
they are given, report what is heard of plain frames before the first ping, then fail, and write
nothing. -/
theorem hears_parted {E : Type} [Extension E] {r₀ r : Receiver} {w₀ v w : World (List E)}
    {st : Feed E} (hx : r₀.hasExtensions = false) (hw₀ : w₀.Healthy) (hw : w.Parted)
    (hsh : w.shared = st.exts) {mode : Mode} {masks : List UInt32} {fs : List Outgoing}
    (hfs : ∀ f ∈ fs, f.Plain r₀.config) {part : List UInt8} (hpart : Unfinished r₀.config part)
    (hT : Feed.Tracks r₀ w₀ r v st) (ho : st.isClosed = false) {s : List UInt8}
    (hs : st.stream <:+ s) (hst : st.stream = Outgoing.encode mode masks fs ++ part)
    (vs : List (List UInt8)) (hvs : vs.length = (heard (beforePing fs)).length + 1) :
    r.HearsOnly s w vs (heard (beforePing fs)) := by
  induction fs generalizing masks st r v vs with
  | nil =>
    obtain ⟨m, rfl⟩ := List.length_eq_one_iff.mp hvs
    obtain ⟨e, st', x, hret, hns, hsame⟩ := Feed.step_unfinished hpart hst (.start [])
    obtain ⟨r', hrun, -⟩ := Feed.receive_of_quiet hx hw₀ hT hret hsame m w
    exact .error hrun rfl fun h => absurd h hns
  | cons f fs ih =>
    obtain ⟨hh, hres, hcont, hctl, hlen, hmsg⟩ := hfs f List.mem_cons_self
    have hfs' := fun g hg => hfs g (List.mem_cons_of_mem f hg)
    obtain ⟨⟨fin, rsv1, rsv2, rsv3, masked, oc, mask, payloadLen⟩, payload⟩ := f
    dsimp only at hh hres hcont hctl hlen hmsg
    rw [hh] at hst hfs hvs ⊢
    obtain ⟨g, hbytes, hpay, hoc, hfin⟩ := exists_frame oc payload hres hctl hlen mode (masks.headD 0)
    -- what is left of the stream after the frame
    let rest := Outgoing.encode mode masks.tail fs ++ part
    have hstream : st.stream = g.bytes ++ rest := by
      rw [hst, hbytes, Outgoing.encode, List.append_assoc]
    have hrest : rest <:+ s := (hstream ▸ List.suffix_append g.bytes rest : rest <:+ st.stream).trans hs
    -- a frame that is reported and not answered
    have hquiet : oc ≠ .ping → ∀ (i : Incoming) (x : List UInt8),
        st.step r₀.config (.start []) = .ret (.ok i) { st with stream := rest } x →
        heard (⟨Header.new oc, payload⟩ :: beforePing fs) = (i, x) :: heard (beforePing fs) →
        r.HearsOnly s w vs (heard (beforePing (⟨Header.new oc, payload⟩ :: fs))) := by
      intro hping i x hstep hheard
      rw [beforePing_cons hping, hheard] at hvs ⊢
      obtain ⟨m, vs, rfl⟩ := List.exists_cons_of_length_eq_add_one hvs
      obtain ⟨r', hrun, hT'⟩ := Feed.receive_of_quiet hx hw₀ hT hstep rfl m w
      have hT'' := hT' trivial
      exact .cons hrun rfl (hT''.stream ▸ hrest)
        (ih (show w.shared = ({ st with stream := rest } : Feed E).exts from hsh) hfs' hT'' ho hrest rfl
          vs (Nat.succ.inj hvs))
    have hdata : oc = .text ∨ oc = .binary →
        heard (⟨Header.new oc, payload⟩ :: beforePing fs) =
          (.data (.ofOpCode oc payload.length), payload) :: heard (beforePing fs) →
        r.HearsOnly s w vs (heard (beforePing (⟨Header.new oc, payload⟩ :: fs))) := by
      intro hkind hheard
      have hc := (isControl_of_text_or_binary hkind).1
      have hstep := Feed.step_single hx g hstream ho (hoc.symm ▸ hkind) hfin
        (by rw [← g.length_payload, hpay]; exact hmsg hc)
      rw [hoc, hpay] at hstep
      exact hquiet (by rintro rfl; cases hc) _ _ hstep hheard
    cases oc with
    | text => exact hdata (Or.inl rfl) rfl
    | binary => exact hdata (Or.inr rfl) rfl
    | ping =>
      obtain ⟨m, rfl⟩ := List.length_eq_one_iff.mp hvs
      obtain ⟨r', w', hrun⟩ := Feed.receive_ping hw hT g hstream ho hoc m
      exact .closed hw hrun
    | pong =>
      refine hquiet (by decide) (.pong payload) [] ?_ rfl
      rw [Feed.step_control g hstream ho (by rw [hoc]; rfl), Feed.onControl, hoc, hpay]
      rfl
    | close =>
      have hne : OpCode.close ≠ .ping := by decide
      rw [beforePing_cons hne] at hvs ⊢
      rcases hca : closeAnswer payload with e | ⟨answer, reason⟩
      · rw [heard_close_error hca] at hvs ⊢
        have hstep := Feed.step_control g hstream ho (by rw [hoc]; rfl) (.start [])
        rw [Feed.onControl, hoc, hpay] at hstep
        dsimp only at hstep
        rw [hca] at hstep
        obtain ⟨m, rfl⟩ := List.length_eq_one_iff.mp hvs
        obtain ⟨r', hrun, hT'⟩ := Feed.receive_of_quiet hx hw₀ hT hstep rfl m w
        exact .error hrun rfl fun h => (hT' h).stream ▸ hrest
      · rw [heard_close hca] at hvs ⊢
        rw [← hpay] at hca
        cases reason with
        | none =>
          obtain ⟨m, rfl⟩ := List.length_eq_one_iff.mp hvs
          obtain ⟨r', w', -, -, hrun⟩ := Feed.receive_close hw hT hsh g hstream ho hoc hca m
          exact .closed hw hrun
        | some c =>
          obtain ⟨m, vs, rfl⟩ := List.exists_cons_of_length_eq_add_one hvs
          obtain ⟨m', rfl⟩ := List.length_eq_one_iff.mp (Nat.succ.inj hvs)
          obtain ⟨r', w', hcl, hr', hrun⟩ := Feed.receive_close hw hT hsh g hstream ho hoc hca m
          obtain ⟨hw', hwire⟩ := hw.run (r.receive m)
          rw [hrun] at hw' hwire
          exact .cons (x := []) (by rw [List.append_nil]; exact hrun) hwire (hr' ▸ hrest)
            (.closed hw' (receive_closed hcl m' w'))
    | «continue» => exact absurd rfl hcont
    | _ => cases hres

end Soketto
