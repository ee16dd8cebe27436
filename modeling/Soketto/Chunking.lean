import Soketto.Feed.Calls

/-!
# Receiving does not depend on how the stream is split

* `Boundary cfg s pos`, `EndsFrame cfg s pos i`: the positions of a stream at which a frame ends,
  and those at which the frame ends that completes the result `i`.
* **`receive_chunking_independent`**: two receivers with the same stream amount to the same
  outcomes, call by call, wherever the stream is split into buffer and reads.
-/

set_option autoImplicit false

namespace Soketto

open Incremental Chunked

/-- Positions of the stream `s` that lie between two frames. -/
inductive Boundary (cfg : Config) (s : List UInt8) : ℕ → Prop
  | zero : Boundary cfg s 0
  | next {pos off : ℕ} {h : Header} (hb : Boundary cfg s pos)
      (hd : cfg.codec.decodeHeader.run (s.drop pos) = .ok (.done h off))
      (hle : pos + (off + h.payloadLen) ≤ s.length) : Boundary cfg s (pos + (off + h.payloadLen))

/-- At `pos` ends a frame that makes a call return `i`. -/
def EndsFrame (cfg : Config) (s : List UInt8) (pos : ℕ) (i : Incoming) : Prop :=
  ∃ start h off, Boundary cfg s start ∧
    cfg.codec.decodeHeader.run (s.drop start) = .ok (.done h off) ∧
    pos = start + (off + h.payloadLen) ∧ pos ≤ s.length ∧ Completes h i

namespace Feed

variable {E : Type} [Extension E] {cfg : Config} {s : List UInt8}

/-- The state stands between two frames of `s`. -/
def OnBoundary (cfg : Config) (s : List UInt8) (st : Feed E) : Prop :=
  ∃ pos, st.stream = s.drop pos ∧ pos ≤ s.length ∧ Boundary cfg s pos

theorem OnBoundary.again {st st' : Feed E} {l l' : Locals} (hb : OnBoundary cfg s st)
    (h : st.step cfg l = .again st' l') : OnBoundary cfg s st' ∧ st.sent <+: st'.sent := by
  obtain ⟨pos, hpos, hle, hbd⟩ := hb
  rcases step_cases cfg st l with ⟨e, st'', m, he, -⟩ | ⟨hd, off, hdec, -, hlen, htook⟩
  · cases h.symm.trans he
  rw [hpos] at hdec
  rw [hpos, List.length_drop] at hlen
  rw [h, hpos, List.drop_drop] at htook
  exact ⟨⟨_, htook.1, by omega, hbd.next hdec (by omega)⟩, htook.2⟩

theorem OnBoundary.steps {st st' : Feed E} {l l' : Locals} (hs : Steps cfg st l st' l')
    (hb : OnBoundary cfg s st) : OnBoundary cfg s st' ∧ st.sent <+: st'.sent := by
  induction hs with
  | refl => exact ⟨hb, List.prefix_refl _⟩
  | head h _ ih =>
    obtain ⟨hb₁, hsent₁⟩ := hb.again h
    obtain ⟨hb₂, hsent₂⟩ := ih hb₁
    exact ⟨hb₂, hsent₁.trans hsent₂⟩

theorem exists_outcome {st : Feed E} (hb : OnBoundary cfg s st) :
    ∃ (o : Outcome) (st' : Feed E),
      Runs cfg st (.start []) o.result st' o.appended ∧ st'.sent = st.sent ++ o.replies ∧
      (InSync o.result → st'.stream = s.drop o.pos ∧ o.pos ≤ s.length) ∧
      ∀ i, o.result = .ok i → EndsFrame cfg s o.pos i ∧ OnBoundary cfg s st' := by
  obtain ⟨result, st', x, hrun⟩ := exists_runs cfg st (.start [])
  obtain ⟨st₁, l₁, hs, hret⟩ := id hrun
  obtain ⟨⟨pos, hpos, hle, hbd⟩, hpre⟩ := hb.steps hs
  rcases step_cases cfg st₁ l₁ with ⟨e, st'', m, he, hns, hsent⟩ | ⟨h, off, hdec, -, hlen, htook⟩
  · cases hret.symm.trans he
    obtain ⟨rs, hrs⟩ := hpre
    exact ⟨⟨.error e, x, rs, 0⟩, st', hrun, by rw [hsent, hrs], fun h => absurd h hns,
      fun i hi => by cases hi⟩
  · rw [hpos] at hdec
    rw [hpos, List.length_drop] at hlen
    rw [hret, hpos, List.drop_drop] at htook
    cases result with
    | error e =>
      obtain ⟨rs, hrs⟩ := hpre.trans htook.2
      exact ⟨⟨.error e, x, rs, pos + (off + h.payloadLen)⟩, st', hrun, hrs.symm,
        fun _ => ⟨htook.1, by simp only; omega⟩, fun i hi => by cases hi⟩
    | ok i =>
      obtain ⟨rs, hrs⟩ := hpre.trans htook.2.1
      refine ⟨⟨.ok i, x, rs, pos + (off + h.payloadLen)⟩, st', hrun, hrs.symm,
        fun _ => ⟨htook.1, by simp only; omega⟩, fun j hj => ?_⟩
      cases hj
      exact ⟨⟨pos, h, off, hbd, hdec, rfl, by simp only; omega, htook.2.2⟩,
        _, htook.1, by omega, hbd.next hdec (by omega)⟩

theorem exists_receives (n : ℕ) {st : Feed E} (hb : OnBoundary cfg s st) :
    ∃ outs, Receives cfg s st outs ∧ outs.length ≤ n ∧
      (outs.length = n ∨ ∃ o ∈ outs.getLast?, ∃ e, o.result = .error e) ∧
      ∀ o ∈ outs, ∀ i, o.result = .ok i → EndsFrame cfg s o.pos i := by
  induction n generalizing st with
  | zero => exact ⟨[], trivial, le_refl _, Or.inl rfl, fun o ho => by cases ho⟩
  | succ n ih =>
    obtain ⟨o, st', hrun, hsent, hpos, hok⟩ := exists_outcome hb
    cases hres : o.result with
    | error e =>
      refine ⟨[o], ⟨st', hrun, hsent, hpos, by rw [hres]⟩, by simp, Or.inr ⟨o, rfl, e, hres⟩, ?_⟩
      intro o' ho' i hi
      obtain rfl := List.mem_singleton.mp ho'
      cases hres.symm.trans hi
    | ok i =>
      obtain ⟨hend, hb'⟩ := hok i hres
      obtain ⟨outs, hr, hle, hlast, hends⟩ := ih hb'
      refine ⟨o :: outs, ⟨st', hrun, hsent, hpos, by rw [hres]; exact hr⟩,
        Nat.succ_le_succ hle, ?_, ?_⟩
      · rcases hlast with hlast | ⟨o', ho', he⟩
        · exact Or.inl (congrArg Nat.succ hlast)
        · refine Or.inr ⟨o', ?_, he⟩
          rw [Option.mem_def] at ho' ⊢
          rw [List.getLast?_cons, ho']
          rfl
      · intro o' ho' j hj
        rcases List.mem_cons.mp ho' with rfl | ho'
        · cases hres.symm.trans hj
          exact hend
        · exact hends o' ho' j hj

end Feed

/-- **Receiving does not depend on chunking.** Two receivers without extensions, configured alike,
whose buffer and reads make up the same stream, called equally often: the same outcomes, that is
results, appended bytes, replies and positions, up to and including the first error. After a call
that succeeds, the receiver stands where the frame ends that completed it. -/
theorem receive_chunking_independent {E : Type} [Extension E] {r₁ r₂ : Receiver}
    {w₁ w₂ : World (List E)} (h₁ : r₁.Ready w₁) (h₂ : r₂.Ready w₂)
    (hcfg : r₁.config = r₂.config) (hstream : r₁.stream = r₂.stream)
    (ms₁ ms₂ : List (List UInt8)) (hms : ms₁.length = ms₂.length) :
    ∃ outs, (outs.length = ms₁.length ∨
        outs.length ≤ ms₁.length ∧ ∃ o ∈ outs.getLast?, ∃ e, o.result = .error e) ∧
      r₁.Receives r₁.stream w₁ (ms₁.take outs.length) outs ∧
      r₂.Receives r₂.stream w₂ (ms₂.take outs.length) outs ∧
      ∀ o ∈ outs, ∀ i, o.result = .ok i → EndsFrame r₁.config r₁.stream o.pos i := by
  have hb : Feed.OnBoundary r₁.config r₁.stream (Feed.ofReceiver r₁ ([] : List E)) :=
    ⟨0, rfl, Nat.zero_le _, .zero⟩
  obtain ⟨outs, hr, hle, hlast, hends⟩ := Feed.exists_receives ms₁.length hb
  have hlen : ∀ ms : List (List UInt8), ms₁.length = ms.length →
      (ms.take outs.length).length = outs.length := fun ms h => by
    rw [List.length_take]
    omega
  have hfeed : Feed.ofReceiver r₁ ([] : List E) = Feed.ofReceiver r₂ [] := by
    rw [Feed.ofReceiver, Feed.ofReceiver, hstream, h₁.isClosed, h₂.isClosed]
  refine ⟨outs, ?_, ?_, ?_, hends⟩
  · rcases hlast with h | h
    · exact Or.inl h
    · exact Or.inr ⟨hle, h⟩
  · exact Feed.sim_receives h₁ hr (hlen ms₁ rfl)
  · rw [hcfg, hstream, hfeed] at hr
    exact Feed.sim_receives h₂ hr (hlen ms₂ hms)

/-- A ping and a text message, read from the buffer or byte by byte. -/
theorem receive_chunking_independent_split :
    let b₁ : Builder Empty := (Builder.new [] .server).setBuffer [0x89, 0, 0x81, 1, 65]
    let b₂ : Builder Empty := Builder.new [.data [0x89], .data [0, 0x81], .data [1], .data [65]] .server
    ∃ outs, (outs.length = 1 ∨
        outs.length ≤ 1 ∧ ∃ o ∈ outs.getLast?, ∃ e, o.result = .error e) ∧
      b₁.finish.2.1.Receives b₁.finish.2.1.stream (b₁.world []) ([[]].take outs.length) outs ∧
      b₂.finish.2.1.Receives b₂.finish.2.1.stream (b₂.world []) ([[7]].take outs.length) outs ∧
      ∀ o ∈ outs, ∀ i, o.result = .ok i →
        EndsFrame b₁.finish.2.1.config b₁.finish.2.1.stream o.pos i := by
  intro b₁ b₂
  have h₁ : b₁.finish.2.1.Ready (b₁.world []) := ready_finish rfl clean_nil []
  have h₂ : b₂.finish.2.1.Ready (b₂.world []) := ready_finish rfl clean_nil.data.data.data.data []
  exact receive_chunking_independent h₁ h₂ rfl rfl [[]] [[7]] rfl

end Soketto
