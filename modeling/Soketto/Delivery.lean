import Soketto.Atomicity
import Soketto.Heard
import Soketto.Lib.Fuse
import Soketto.Lib.Interleave

/-!
# What arrives of what is sent

The halves of a connection without extensions race for the writer, which may break at any time, and
a peer reads what is on the wire.

* `exists_encode`: what was written in the sections of the halves is an interleaving of their
  frames. `Wired`: the wire holds frames, and the beginning of one; `Begun`: so does what a half has
  written.
* **`wired_of_inv`**: this is so at every moment of a race.
* `Outgoing.message`, `Op.message`: the data messages of frames and operations; `messages_heard`.
* **`messages_arrive`**: the peer gets the messages of the operations, in order, none lost, doubled or
  made up, up to the moment.
-/

set_option autoImplicit false

namespace Soketto

open Incremental Chunked BigEndian Interleave

/-! ## Frames on the wire -/

section Wire

variable {mode : Mode} {E : Type}

theorem flatten_eq_encode {secs : List (List UInt8)} {fs : List Outgoing}
    (h : List.Forall₂ (fun bs f => ∃ mask, bs = Outgoing.bytes mode mask f) secs fs) :
    ∃ masks, secs.flatten = Outgoing.encode mode masks fs := by
  induction h with
  | nil => exact ⟨[], rfl⟩
  | @cons bs f secs fs hb _ ih =>
    obtain ⟨mask, rfl⟩ := hb
    obtain ⟨masks, hm⟩ := ih
    exact ⟨mask :: masks, by rw [List.flatten_cons, hm]; rfl⟩

theorem flatten_filter_ne_nil (secs : List (List UInt8)) :
    (secs.filter (· ≠ [])).flatten = secs.flatten := by
  induction secs with
  | nil => rfl
  | cons bs secs ih =>
    cases bs with
    | nil => exact ih
    | cons b bs => simpa using ih

/-- **Sections are an interleaving of frames.** What is `more` than the sections of a half writes
what is left of its frames. -/
theorem exists_encode {xs : List (Half × List UInt8)} {more : Half → List (List UInt8)}
    {fs : Half → List Outgoing} (h : ∀ i, WriteFrames mode (part i xs ++ more i) (fs i)) :
    ∃ (sent : List (Half × Outgoing)) (masks : List UInt32) (rest : Half → List Outgoing),
      xs.flatMap Prod.snd = Outgoing.encode mode masks (sent.map Prod.snd) ∧
      ∀ i, fs i = part i sent ++ rest i ∧ WriteFrames mode (more i) (rest i) ∧
        ∃ masks, (part i xs).flatten = Outgoing.encode mode masks (part i sent) := by
  have h' : ∀ i, List.Forall₂ (fun bs f => ∃ mask, bs = Outgoing.bytes mode mask f)
      (part i (xs.filter fun x => x.2 ≠ []) ++ (more i).filter (· ≠ [])) (fs i) := by
    intro i
    have hi := h i
    rw [WriteFrames, List.filter_append] at hi
    rw [part_filter fun bs : List UInt8 => bs ≠ []]
    exact hi
  obtain ⟨sent, rest, hsent, hparts⟩ := exists_interleaving h'
  have hflat : List.Forall₂ (fun bs f => ∃ mask, bs = Outgoing.bytes mode mask f)
      ((xs.filter fun x => x.2 ≠ []).map Prod.snd) (sent.map Prod.snd) := by
    rw [List.forall₂_map_left_iff, List.forall₂_map_right_iff]
    exact hsent.imp fun _ _ hab => hab.2
  obtain ⟨masks, hm⟩ := flatten_eq_encode hflat
  refine ⟨sent, masks, rest, ?_, fun i => ⟨(hparts i).1, (hparts i).2, ?_⟩⟩
  · rw [← hm, List.flatMap_def, ← flatten_filter_ne_nil (xs.map Prod.snd), List.filter_map]
    rfl
  · rw [← flatten_filter_ne_nil, ← part_filter fun bs : List UInt8 => bs ≠ []]
    exact flatten_eq_encode (forall₂_part hsent i)

/-- The wire holds the frames `sent` of the halves, and the beginning of one. Those of a half are
the first of its frames `fs`. -/
structure Wired (mode : Mode) (fs : Half → List Outgoing) (wire : List UInt8)
    (sent : List (Half × Outgoing)) : Prop where
  wire : ∃ masks rest, wire = Outgoing.encode mode masks (sent.map Prod.snd) ++ rest ∧
    (rest = [] ∨ ∃ i, ∃ f ∈ fs i, ∃ mask more, more ≠ [] ∧ f.bytes mode mask = rest ++ more)
  parts : ∀ i, part i sent <+: fs i

/-- The bytes are those of the frames `gs`, the first ones of `fs`, and of a part of the next one. -/
def Begun (mode : Mode) (fs gs : List Outgoing) (bs : List UInt8) : Prop :=
  ∃ masks rest, bs = Outgoing.encode mode masks gs ++ rest ∧
    (rest = [] ∨ ∃ g, gs ++ [g] <+: fs ∧ ∃ mask more, more ≠ [] ∧ g.bytes mode mask = rest ++ more)

theorem WriteFrames.exists_cons {c rest : List UInt8} {more : List (List UInt8)} {fs : List Outgoing}
    (h : WriteFrames mode ((c ++ rest) :: more) fs) (hrest : rest ≠ []) :
    ∃ g gs mask, fs = g :: gs ∧ g.bytes mode mask = c ++ rest := by
  rw [WriteFrames, List.filter_cons_of_pos (by simp [hrest])] at h
  obtain ⟨g, gs, ⟨mask, hg⟩, -, hfs⟩ := List.forall₂_cons_left_iff.mp h
  exact ⟨g, gs, mask, hfs, hg.symm⟩

theorem wired_of_sections {xs : List (Half × List UInt8)} {more : Half → List (List UInt8)}
    {fs : Half → List Outgoing} {c wire : List UInt8} {written : Half → List UInt8}
    (hw : ∀ i, WriteFrames mode (part i xs ++ more i) (fs i))
    (hc : c = [] ∨ ∃ i rest more', rest ≠ [] ∧ more i = (c ++ rest) :: more')
    (hwire : wire = xs.flatMap Prod.snd ++ c)
    (hwritten : ∀ i, written i = (part i xs).flatten ∨ written i = (part i xs).flatten ++ c ∧
      ∃ rest more', rest ≠ [] ∧ more i = (c ++ rest) :: more') :
    ∃ sent, Wired mode fs wire sent ∧ (∀ i, more i = [] → part i sent = fs i) ∧
      ∀ i, Begun mode (fs i) (part i sent) (written i) := by
  obtain ⟨sent, masks, left, henc, hparts⟩ := exists_encode hw
  refine ⟨sent, ⟨⟨masks, c, by rw [hwire, henc], ?_⟩, fun i => ?_⟩, fun i hi => ?_, fun i => ?_⟩
  · rcases hc with rfl | ⟨i, rest, more', hrest, hm⟩
    · exact .inl rfl
    · obtain ⟨g, gs, mask, hleft, hg⟩ := (hm ▸ (hparts i).2.1).exists_cons hrest
      refine .inr ⟨i, g, ?_, mask, rest, hrest, hg⟩
      rw [(hparts i).1, hleft]
      exact List.mem_append_right _ List.mem_cons_self
  · rw [(hparts i).1]
    exact List.prefix_append _ _
  · have hleft := (hparts i).2.1
    rw [hi] at hleft
    have hnil : left i = [] := List.forall₂_nil_left_iff.mp hleft
    rw [(hparts i).1, hnil, List.append_nil]
  · obtain ⟨masks, hm⟩ := (hparts i).2.2
    rcases hwritten i with hwr | ⟨hwr, rest, more', hrest, hmore⟩
    · exact ⟨masks, [], by rw [hwr, hm, List.append_nil], .inl rfl⟩
    · obtain ⟨g, gs, mask, hleft, hg⟩ := (hmore ▸ (hparts i).2.1).exists_cons hrest
      refine ⟨masks, c, by rw [hwr, hm], .inr ⟨g, ?_, mask, rest, hrest, hg⟩⟩
      rw [(hparts i).1, hleft]
      exact ⟨gs, by rw [List.append_assoc]; rfl⟩

variable {α : Half → Type} {fibers : (i : Half) → Fiber (List E) (α i)}
  {st : Race Half α (List E)}

/-- **Every moment of a race**, when the halves write frames. A half that has no more sections has
all its frames on the wire. -/
theorem wired_of_inv (hinv : Race.Inv fibers st) {more : Half → List (List UInt8)}
    {fs : Half → List Outgoing} (hw : ∀ i, WriteFrames mode (st.sections i ++ more i) (fs i))
    (hcur : ∀ i c, st.current = some (i, c) → ∃ rest more', more i = (c ++ rest) :: more') :
    ∃ sent, Wired mode fs st.wire sent ∧ (∀ i, more i = [] → part i sent = fs i) ∧
      ∀ i, Begun mode (fs i) (part i sent) (st.written i) := by
  have hwire := hinv.wire
  rcases hc : st.current with _ | ⟨i, c⟩
  · rw [hc] at hwire
    refine wired_of_sections hw (.inl rfl) hwire fun i => .inl ?_
    simp only [Race.written, Race.held, hc]
    exact List.append_nil _
  · rw [hc] at hwire
    replace hwire : st.wire = st.done.flatMap Prod.snd ++ c := hwire
    obtain ⟨rest, more', hm⟩ := hcur i c hc
    have hothers : ∀ j, j ≠ i → st.written j = (part j st.done).flatten := by
      intro j hj
      rw [Race.written, Race.held_of_ne hc hj]
      exact List.append_nil _
    have hself : st.written i = (part i st.done).flatten ++ c := by
      rw [Race.written, Race.held_of_current hc]
      rfl
    by_cases hrest : rest = []
    · -- the frame is complete, although the section is not finished
      subst hrest
      rw [List.append_nil] at hm
      have hdone : ∀ j, part j (st.done ++ [(i, c)]) ++ Function.update more i more' j =
          st.sections j ++ more j := by
        intro j
        rw [part_append]
        by_cases hj : j = i
        · subst hj
          rw [Function.update_self, part_cons_self, part_nil, List.append_assoc, hm]
          rfl
        · rw [Function.update_of_ne hj, part_cons_ne (Ne.symm hj), part_nil, List.append_nil]
          rfl
      have hflat : ∀ j, st.written j = (part j (st.done ++ [(i, c)])).flatten := by
        intro j
        rw [part_append]
        by_cases hj : j = i
        · subst hj
          rw [hself, part_cons_self, part_nil, List.flatten_append, List.flatten_singleton]
        · rw [hothers j hj, part_cons_ne (Ne.symm hj), part_nil, List.append_nil]
      obtain ⟨sent, hsent, hall, hbegun⟩ := @wired_of_sections mode (st.done ++ [(i, c)])
        (Function.update more i more') fs [] st.wire st.written (fun j => hdone j ▸ hw j) (.inl rfl)
        (by simp [hwire]) fun j => .inl (hflat j)
      refine ⟨sent, hsent, fun j hj => hall j ?_, hbegun⟩
      by_cases hji : j = i
      · subst hji
        rw [hm] at hj
        cases hj
      · rw [Function.update_of_ne hji, hj]
    · refine wired_of_sections hw (.inr ⟨i, rest, more', hrest, hm⟩) hwire fun j => ?_
      by_cases hj : j = i
      · subst hj
        exact .inr ⟨hself, rest, more', hrest, hm⟩
      · exact .inl (hothers j hj)

end Wire

/-! ## Plain frames -/

variable {cfg : Config}

theorem Op.plain_frame {op : Op} {f : Outgoing} (hf : op.frame = some f) (hfits : op.Fits cfg) :
    f.Plain cfg := by
  obtain ⟨h₁, h₂⟩ := hfits f hf
  have hp := Op.proper_frame 0 hf
  refine ⟨?_, hp.not_reserved, ?_, hp.control_len, h₁, h₂⟩ <;>
  · cases op <;> cases hf <;> first | rfl | exact fun h => by cases h

theorem OpsWrite.eq_frames {E : Type} [Extension E] {ops : List Op}
    {results : List (Except Error Unit)} {fs : List Outgoing}
    (h : OpsWrite E false ops results fs) : fs = ops.filterMap Op.frame := by
  induction h with
  | nil => rfl
  | @cons op ops result results fs gs hop _ ih =>
    cases hop with
    | plain =>
      rw [ih, List.filterMap_cons]
      cases op.frame <;> rfl
    | encoded hx => cases hx
    | refused hx => cases hx

theorem header_answerTo {header : Header} {payload : List UInt8} {f : Outgoing}
    (h : answerTo header payload = some f) :
    f.header = Header.new .pong ∨ f.header = Header.new .close := by
  unfold answerTo at h
  split at h
  · cases h
    exact Or.inl rfl
  · split at h
    · cases h
    · next answer reason hca =>
      cases h
      exact Or.inr (Receiver.header_closeAnswer hca)
  · cases h

namespace Receiver

theorem header_answer {r : Receiver} {f : Outgoing} (h : r.answer = some f) :
    f.header = Header.new .pong ∨ f.header = Header.new .close := by
  unfold answer at h
  split_ifs at h
  split at h
  · split_ifs at h
    unfold controlAnswer at h
    split at h
    · cases h
    · exact header_answerTo h
  · cases h

theorem plain_answer (hctl : maxCtrlBodySize ≤ cfg.maxDataSize.toNat) {r : Receiver} {f : Outgoing}
    (h : r.answer = some f) : f.Plain cfg := by
  have hp := proper_answer 0 h
  have hlen : f.header.opcode.isControl = true → f.payload.length ≤ maxCtrlBodySize := hp.control_len
  rcases header_answer h with hh | hh <;> rw [hh] at hlen
  all_goals
    refine ⟨?_, hp.not_reserved, ?_, hp.control_len, (hlen rfl).trans hctl, fun hc => ?_⟩ <;>
      rw [hh] at * <;> first | rfl | exact fun h => (by cases h) | cases hc

variable {E : Type} [Extension E] {all : Bool} {fs : List Outgoing} {ms : List (List UInt8)}

theorem AnswersAll.forall {P : Outgoing → Prop} (hP : ∀ (r : Receiver) f, r.answer = some f → P f)
    {r : Receiver} (h : AnswersAll E all r ms fs) : ∀ f ∈ fs, P f := by
  have hans : ∀ {r : Receiver} {f}, f ∈ r.answer.toList → P f :=
    fun hf => hP _ _ (Option.mem_toList.mp hf)
  have hcalls : ∀ {r : Receiver} {l ms fs}, Answers E all r l ms fs → ∀ f ∈ fs, P f := by
    intro r l ms fs h
    induction h with
    | stop => simp
    | again _ _ ih =>
      intro f hf
      rcases List.mem_append.mp hf with hf | hf
      · exact hans hf
      · exact ih f hf
    | last => exact fun f hf => hans hf
    | next _ _ ih =>
      intro f hf
      rcases List.mem_append.mp hf with hf | hf
      · exact hans hf
      · exact ih f hf
  cases ms with
  | nil =>
    obtain rfl : fs = [] := h
    simp
  | cons m ms => exact hcalls h

end Receiver

/-! ## Messages -/

/-- The data message in a frame. -/
def Outgoing.message (f : Outgoing) : Option (Data × List UInt8) :=
  match f.header.opcode with
  | .text | .binary => some (.ofOpCode f.header.opcode f.payload.length, f.payload)
  | _ => none

/-- The data message of an operation. -/
def Op.message (op : Op) : Option (Data × List UInt8) := op.frame.bind Outgoing.message

/-- The data message among the results of calls. -/
def messageOf : Incoming × List UInt8 → Option (Data × List UInt8)
  | (.data d, x) => some (d, x)
  | _ => none

theorem filterMap_message (ops : List Op) :
    (ops.filterMap Op.frame).filterMap Outgoing.message = ops.filterMap Op.message := by
  rw [List.filterMap_filterMap]
  rfl

theorem messages_heard_cons {f : Outgoing} (hres : f.header.opcode.isReserved = false)
    (hcont : f.header.opcode ≠ .continue) (fs : List Outgoing) :
    (heard (f :: fs)).filterMap messageOf =
      f.message.toList ++ if f.header.opcode = .close then [] else (heard fs).filterMap messageOf := by
  rw [heard, Outgoing.message]
  cases hoc : f.header.opcode <;> rw [hoc] at hcont hres
  case close =>
    dsimp only
    rcases closeAnswer f.payload with e | ⟨answer, _ | r⟩ <;> rfl
  case «continue» => exact absurd rfl hcont
  all_goals first | rfl | cases hres

/-- **The messages that are heard** are the first messages of the frames, and all of them if there is
no close frame. -/
theorem messages_heard {fs : List Outgoing}
    (hfs : ∀ f ∈ fs, f.header.opcode.isReserved = false ∧ f.header.opcode ≠ .continue) :
    (heard fs).filterMap messageOf <+: fs.filterMap Outgoing.message ∧
      ((∀ f ∈ fs, f.header.opcode ≠ .close) →
        (heard fs).filterMap messageOf = fs.filterMap Outgoing.message) := by
  induction fs with
  | nil => exact ⟨List.prefix_refl _, fun _ => rfl⟩
  | cons f fs ih =>
    obtain ⟨h₁, h₂⟩ := ih fun g hg => hfs g (List.mem_cons_of_mem f hg)
    have hcons : (f :: fs).filterMap Outgoing.message =
        f.message.toList ++ fs.filterMap Outgoing.message := by
      rw [List.filterMap_cons]
      cases f.message <;> rfl
    obtain ⟨hres, hcont⟩ := hfs f List.mem_cons_self
    rw [messages_heard_cons hres hcont, hcons]
    refine ⟨?_, fun hne => ?_⟩
    · rw [List.prefix_append_right_inj]
      split_ifs
      · exact List.nil_prefix
      · exact h₁
    · rw [if_neg (hne f List.mem_cons_self), h₂ fun g hg => hne g (List.mem_cons_of_mem f hg)]

theorem Wired.plain {mode : Mode} {fs : Half → List Outgoing} {wire : List UInt8}
    {sent : List (Half × Outgoing)} (hw : Wired mode fs wire sent)
    (hfs : ∀ i, ∀ f ∈ fs i, f.Plain cfg) :
    (∀ f ∈ sent.map Prod.snd, f.Plain cfg) ∧ ∃ masks rest,
      wire = Outgoing.encode mode masks (sent.map Prod.snd) ++ rest ∧ Unfinished cfg rest := by
  obtain ⟨⟨masks, rest, hwire, hrest⟩, hparts⟩ := hw
  refine ⟨fun f hf => ?_, masks, rest, hwire, ?_⟩
  · obtain ⟨⟨i, g⟩, hg, rfl⟩ := List.mem_map.mp hf
    exact hfs i g ((hparts i).subset (mem_part.mpr hg))
  · rcases hrest with hnil | ⟨i, f, hf, mask, more, hmore, hbytes⟩
    · exact Or.inl hnil
    · obtain ⟨hh, h₁, -, h₂, h₃, -⟩ := hfs i f hf
      obtain ⟨g, hg, -⟩ := exists_frame f.header.opcode f.payload h₁ h₂ h₃ mode mask
      rw [← hh] at hg
      exact Or.inr ⟨g, more, hmore, hg.trans hbytes⟩

theorem message_answer {r : Receiver} {f : Outgoing} (h : r.answer = some f) : f.message = none := by
  rcases Receiver.header_answer h with hh | hh <;> rw [Outgoing.message, hh] <;> rfl

theorem filterMap_message_part {sent : List (Half × Outgoing)}
    (h : ∀ f ∈ part .receiver sent, f.message = none) :
    (sent.map Prod.snd).filterMap Outgoing.message =
      (part .sender sent).filterMap Outgoing.message := by
  refine filterMap_part fun j f hf hj => ?_
  cases j with
  | sender => exact absurd rfl hj
  | receiver => exact h f (mem_part.mpr hf)

/-! ## A race of halves -/

/-- One value for each half. -/
def Half.pick {α : Type} (x y : α) : Half → α
  | sender => x
  | receiver => y

section Race

variable {E : Type} [Extension E] {s : Sender} {r : Receiver} {ops : List Op}
  {ms : List (List UInt8)} {st : Race Half Half.Output (List E)}

theorem exists_frames (hinv : Race.Inv (halves s r ops ms) st) (hx : s.hasExtensions = false)
    (hm : r.mode = s.mode) :
    ∃ (more : Half → List (List UInt8)) (fs : Half → List Outgoing),
      (∀ i, WriteFrames s.mode (st.sections i ++ more i) (fs i)) ∧
      (∀ i c, st.current = some (i, c) → ∃ rest more', more i = (c ++ rest) :: more') ∧
      fs .sender <+: ops.filterMap Op.frame ∧ (∃ all, r.AnswersAll E all ms (fs .receiver)) ∧
      ∀ x, st.fibers .sender = .ret (some x) →
        more .sender = [] ∧ fs .sender = ops.filterMap Op.frame := by
  obtain ⟨more, out, htr, hcur, hret⟩ := hinv.exists_traces .sender
  obtain ⟨-, ops₁, results, fs, hpre, hops, hw, hout⟩ := traces_performAll htr
  rw [hx] at hops
  obtain rfl := hops.eq_frames
  obtain ⟨more', out', htr', hcur', -⟩ := hinv.exists_traces .receiver
  obtain ⟨-, fs', hw', ha⟩ := Receiver.traces_receiveAll htr'
  rw [hm] at hw'
  refine ⟨Half.pick more more', Half.pick (ops₁.filterMap Op.frame) fs', fun i => ?_, fun i => ?_,
    hpre.filterMap _, ⟨_, ha⟩, fun x hx' => ?_⟩
  · cases i
    · exact hw
    · exact hw'
  · cases i
    · exact hcur
    · exact hcur'
  obtain ⟨hmore, rfl⟩ := hret _ hx'
  obtain ⟨rfl, -⟩ := hout x rfl
  exact ⟨hmore, rfl⟩

end Race

/-- What the peer `p` gets of the frames `sent`, which the halves of a connection without extensions
have written so far. -/
structure Delivered {E E' : Type} [Extension E] [Extension E'] (b : Builder E) (ops : List Op)
    (ms : List (List UInt8)) (st : Fuse Half Half.Output (List E)) (p : Receiver)
    (v : World (List E')) (sent : List (Half × Outgoing)) : Prop where
  /-- The frames of the operations, in order. -/
  sender : part .sender sent <+: ops.filterMap Op.frame
  /-- The answers to what was received meanwhile, in order. -/
  receiver : ∃ all fs, b.finish.2.1.AnswersAll E all ms fs ∧ part .receiver sent <+: fs
  /-- Calls of the peer report these frames, and then fail. -/
  hears : ∀ vs : List (List UInt8), vs.length = (heard (sent.map Prod.snd)).length + 1 →
    ∃ outs last, p.Receives p.stream v vs (outs ++ [last]) ∧
      (outs.map fun o => (o.result, o.appended)) =
        ((heard (sent.map Prod.snd)).map fun x => (.ok x.1, x.2)) ∧
      ∃ e, last.result = .error e
  /-- The messages that they report are the first ones that were sent. -/
  messages : (heard (sent.map Prod.snd)).filterMap messageOf <+: ops.filterMap Op.message
  /-- They are all of them when the sender is done and neither half has closed. -/
  complete : st.broken = false → (∃ x, st.fibers .sender = .ret (some x)) →
    (∀ x ∈ sent, x.2.header.opcode ≠ .close) →
    (heard (sent.map Prod.snd)).filterMap messageOf = ops.filterMap Op.message

/-- What the peer gets, and what the sender has written of it. -/
theorem exists_delivered {E E' : Type} [Extension E] [Extension E'] {b : Builder E}
    (hx : b.extensions = []) (maskBuffer : List UInt8) (ops : List Op) (ms : List (List UInt8))
    {st : Fuse Half Half.Output (List E)}
    (h : Relation.ReflTransGen Fuse.Step
      (Fuse.init (halves { b.finish.1 with maskBuffer } b.finish.2.1 ops ms) b.finish.2.2) st)
    {p : Receiver} {v : World (List E')} (hp : p.Ready v) (hstream : p.stream = st.wire)
    (hfits : ∀ op ∈ ops, op.Fits p.config) (hctl : maxCtrlBodySize ≤ p.config.maxDataSize.toNat) :
    ∃ sent fs, Delivered b ops ms st p v sent ∧ fs <+: ops.filterMap Op.frame ∧
      Begun b.mode fs (part .sender sent) (st.written .sender) ∧
      ((∀ x ∈ sent, x.2.header.opcode ≠ .close) → (heard (sent.map Prod.snd)).filterMap messageOf =
        (part .sender sent).filterMap Outgoing.message) := by
  obtain ⟨race, hrace, hwire, hsame, hwritten⟩ := Fuse.reachable_written h
  have hinv := Race.reachable (disciplined_halves _ _ ops ms) hrace
  have hext : b.finish.1.hasExtensions = false := by simp only [Builder.finish, hx]; rfl
  obtain ⟨more, fs, hw, hcur, hops, ⟨all, ha⟩, hret⟩ := exists_frames hinv hext rfl
  have hplain : ∀ i, ∀ f ∈ fs i, f.Plain p.config := by
    intro i
    cases i with
    | sender =>
      intro f hf
      obtain ⟨op, hop, hframe⟩ := List.mem_filterMap.mp (hops.subset hf)
      exact Op.plain_frame hframe (hfits op hop)
    | receiver => exact ha.forall fun _ _ => Receiver.plain_answer hctl
  obtain ⟨sent, hwired, hall, hbegun⟩ := wired_of_inv hinv hw hcur
  obtain ⟨hsent, masks, rest, henc, hunfinished⟩ := hwired.plain hplain
  have hmsg := filterMap_message_part fun f hf =>
    ha.forall (P := fun f => f.message = none) (fun _ _ => message_answer) f
      ((hwired.parts .receiver).subset hf)
  obtain ⟨hpre, hcomplete⟩ := messages_heard fun f hf =>
    ⟨(hsent f hf).not_reserved, (hsent f hf).not_continue⟩
  rw [hmsg] at hpre hcomplete
  refine ⟨sent, fs .sender,
    ⟨(hwired.parts _).trans hops, ⟨all, _, ha, hwired.parts _⟩, fun vs hvs => ?_, ?_, ?_⟩,
    hops, by rw [hwritten]; exact hbegun .sender, fun hclose => hcomplete fun f hf => ?_⟩
  · obtain ⟨outs, last, h₁, h₂, h₃, -⟩ := hp.hears hsent hunfinished
      (by rw [hstream, hwire, henc]) vs hvs
    exact ⟨outs, last, h₁, h₂, h₃⟩
  · rw [← filterMap_message]
    exact hpre.trans (((hwired.parts _).trans hops).filterMap _)
  · rintro hb ⟨x, hx'⟩ hclose
    have hdone := hret x (by rw [← hsame hb]; exact hx')
    rw [hcomplete fun f hf => ?_, hall .sender hdone.1, hdone.2, filterMap_message]
    obtain ⟨y, hy, rfl⟩ := List.mem_map.mp hf
    exact hclose y hy
  · obtain ⟨y, hy, rfl⟩ := List.mem_map.mp hf
    exact hclose y hy

/-- **Nothing is lost, doubled, reordered or made up.** The halves of a connection without
extensions race for a writer that may break at any time, with any operations, any bytes received
and any calls. A peer reads what is on the wire at any moment, split in any way. -/
theorem messages_arrive {E E' : Type} [Extension E] [Extension E'] {b : Builder E}
    (hx : b.extensions = []) (maskBuffer : List UInt8) (ops : List Op) (ms : List (List UInt8))
    {st : Fuse Half Half.Output (List E)}
    (h : Relation.ReflTransGen Fuse.Step
      (Fuse.init (halves { b.finish.1 with maskBuffer } b.finish.2.1 ops ms) b.finish.2.2) st)
    {p : Receiver} {v : World (List E')} (hp : p.Ready v) (hstream : p.stream = st.wire)
    (hfits : ∀ op ∈ ops, op.Fits p.config) (hctl : maxCtrlBodySize ≤ p.config.maxDataSize.toNat) :
    ∃ sent, Delivered b ops ms st p v sent := by
  obtain ⟨sent, -, h, -⟩ := exists_delivered hx maskBuffer ops ms h hp hstream hfits hctl
  exact ⟨sent, h⟩

/-- A server that is sent an empty ping. -/
def pingedPlain : Builder Empty := Builder.new [.data [0x89, 0x80, 0, 0, 0, 0]] .server

/-- The sender has sent a message, and the writer breaks in the answer to the ping. -/
theorem messages_arrive_broken :
    ∃ (st : Fuse Half Half.Output (List Empty)) (b : Builder Empty) (sent : List (Half × Outgoing)),
      st.broken = true ∧ st.wire = [0x82, 1, 7, 0x8A] ∧ b.finish.2.1.stream = st.wire ∧
      Delivered pingedPlain [.sendBinary [7]] [[]] st b.finish.2.1 (b.world []) sent := by
  let b : Builder Empty := Builder.new [.data [0x82, 1, 7], .data [0x8A]] .client
  have hrun := Relation.ReflTransGen.refl (r := Fuse.Step)
    (a := Fuse.init (halves { pingedPlain.finish.1 with maskBuffer := [] } pingedPlain.finish.2.1
      [.sendBinary [7]] [[]]) pingedPlain.finish.2.2)
      |>.tail (.whole rfl (.lock (i := .sender) rfl rfl))
      |>.tail (.whole rfl (.write (i := .sender) [0x82] [1] rfl))
      |>.tail (.whole rfl (.write (i := .sender) [1] [] rfl))
      |>.tail (.whole rfl (.written (i := .sender) rfl))
      |>.tail (.whole rfl (.write (i := .sender) [7] [] rfl))
      |>.tail (.whole rfl (.written (i := .sender) rfl))
      |>.tail (.whole rfl (.unlock (i := .sender) rfl rfl))
      |>.tail (.whole rfl (.lock (i := .receiver) rfl rfl))
      |>.tail (.whole rfl (.write (i := .receiver) [0x8A] [0] rfl))
      |>.tail .breaks
      |>.tail (.rejected (i := .receiver) rfl rfl)
  obtain ⟨sent, h⟩ := messages_arrive (b := pingedPlain) (p := b.finish.2.1) (v := b.world [])
    rfl [] [.sendBinary [7]] [[]] hrun (ready_finish rfl clean_nil.data.data []) rfl (by decide)
    (by decide)
  exact ⟨_, b, sent, rfl, rfl, rfl, h⟩

end Soketto
