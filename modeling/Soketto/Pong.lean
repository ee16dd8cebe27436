import Soketto.Grammar

/-!
# Pongs between frames

* `Legal first acc fs msgs`: the frames `fs`, of which any number may be pings and pongs, complete
  the messages `msgs`; `legal_of_messages`: pongs inserted anywhere into messages.
* `openAfter`: is a message open after some frames? `PongsBetween fs`: no pong arrives while one is.
* `PongTransparent`: the calls of `receive` return the data messages, and the pongs besides; the
  calls of `receiveData` return the data messages.
* **`pongTransparent_iff`**: this holds exactly of the sequences with `PongsBetween`. A pong between
  two fragments ends the call, and the next call does not know that a message is open.
-/

set_option autoImplicit false

namespace Soketto

open Incremental Chunked

variable {cfg : Config}

/-! ## Legal sequences -/

/-- With a message open since `first`, of which `acc` has arrived, the frames `fs` complete the
messages `msgs`, none of them too large. Pings and pongs may stand anywhere. At the end, a frame
with the opcode `bad` may interrupt a message. -/
inductive Legal : Option OpCode → List UInt8 → List (Frame cfg) → List (OpCode × List UInt8) →
    Option OpCode → Prop
  | nil : Legal none [] [] [] none
  | unexpected {oc : OpCode} {acc : List UInt8} {f : Frame cfg}
      (h : f.header.opcode.isControl = false) (hoc : f.header.opcode ≠ .continue)
      (hmax : (acc ++ f.payload).length ≤ cfg.maxMessageSize.toNat) :
      Legal (some oc) acc [f] [] (some f.header.opcode)
  | ping {first bad : Option OpCode} {acc : List UInt8} {f : Frame cfg} {fs : List (Frame cfg)}
      {msgs : List (OpCode × List UInt8)} (h : f.header.opcode = .ping)
      (hs : Legal first acc fs msgs bad) : Legal first acc (f :: fs) msgs bad
  | pong {first bad : Option OpCode} {acc : List UInt8} {f : Frame cfg} {fs : List (Frame cfg)}
      {msgs : List (OpCode × List UInt8)} (h : f.header.opcode = .pong)
      (hs : Legal first acc fs msgs bad) : Legal first acc (f :: fs) msgs bad
  | initial {bad : Option OpCode} {f : Frame cfg} {fs : List (Frame cfg)}
      {msgs : List (OpCode × List UInt8)} (h : f.header.opcode.isControl = false)
      (hp : place none f.header = .initial)
      (hs : Legal (some f.header.opcode) f.payload fs msgs bad) : Legal none [] (f :: fs) msgs bad
  | intermediate {bad : Option OpCode} {oc : OpCode} {acc : List UInt8} {f : Frame cfg}
      {fs : List (Frame cfg)} {msgs : List (OpCode × List UInt8)}
      (h : f.header.opcode.isControl = false) (hp : place (some oc) f.header = .intermediate)
      (hs : Legal (some oc) (acc ++ f.payload) fs msgs bad) : Legal (some oc) acc (f :: fs) msgs bad
  | last {bad : Option OpCode} {oc : OpCode} {acc : List UInt8} {f : Frame cfg}
      {fs : List (Frame cfg)} {msgs : List (OpCode × List UInt8)}
      (h : f.header.opcode.isControl = false) (hp : place (some oc) f.header = .last oc)
      (hmax : (acc ++ f.payload).length ≤ cfg.maxMessageSize.toNat)
      (hs : Legal none [] fs msgs bad) :
      Legal (some oc) acc (f :: fs) ((oc, acc ++ f.payload) :: msgs) bad
  | single {bad : Option OpCode} {f : Frame cfg} {fs : List (Frame cfg)}
      {msgs : List (OpCode × List UInt8)} (h : f.header.opcode.isControl = false)
      (hp : place none f.header = .single)
      (hmax : f.payload.length ≤ cfg.maxMessageSize.toNat) (hs : Legal none [] fs msgs bad) :
      Legal none [] (f :: fs) ((f.header.opcode, f.payload) :: msgs) bad

/-- The frames other than pongs. -/
def withoutPongs (fs : List (Frame cfg)) : List (Frame cfg) := fs.filter (·.header.opcode ≠ .pong)

theorem Legal.of_withoutPongs {first bad : Option OpCode} {acc : List UInt8}
    {fs tl : List (Frame cfg)} {msgs : List (OpCode × List UInt8)} (htl : tl = [] → bad = none)
    (h : Legal first acc (withoutPongs fs ++ tl) msgs bad) :
    Legal first acc (fs ++ tl) msgs bad := by
  induction fs generalizing first acc msgs with
  | nil => exact h
  | cons f fs ih =>
    by_cases hp : f.header.opcode = .pong
    · refine .pong hp (ih ?_)
      rwa [withoutPongs, List.filter_cons_of_neg (by simp [hp])] at h
    · rw [withoutPongs, List.filter_cons_of_pos (by simp [hp]), List.cons_append] at h
      generalize hgs : fs.filter (·.header.opcode ≠ .pong) ++ tl = gs at h
      cases h with
      | unexpected => cases htl (List.append_eq_nil_iff.mp hgs).2
      | ping h hs => exact .ping h (ih (hgs ▸ hs))
      | pong h _ => exact absurd h hp
      | initial h hp hs => exact .initial h hp (ih (hgs ▸ hs))
      | intermediate h hp hs => exact .intermediate h hp (ih (hgs ▸ hs))
      | last h hp hmax hs => exact .last h hp hmax (ih (hgs ▸ hs))
      | single h hp hmax hs => exact .single h hp hmax (ih (hgs ▸ hs))

theorem Leads.legal {first first' bad : Option OpCode} {acc : List UInt8}
    {gs hs : List (Frame cfg)} {msgs : List (OpCode × List UInt8)} (hl : Leads first gs first')
    (hacc : first = none → acc = []) (h : Legal first' (acc ++ Frame.content gs) hs msgs bad) :
    Legal first acc (gs ++ hs) msgs bad := by
  induction hl generalizing acc with
  | refl first =>
    rw [show Frame.content ([] : List (Frame cfg)) = [] from rfl, List.append_nil] at h
    exact h
  | @ping first first' f fs hf _ ih =>
    have hc : Frame.content (f :: fs) = Frame.content fs := by
      have := Frame.content_append [f] fs
      rwa [Frame.content_control (by rw [hf]; rfl)] at this
    rw [hc] at h
    exact .ping hf (ih hacc h)
  | @data first first' f fs hctl hp _ ih =>
    have hsp := place_spec first f.header
    rw [hp] at hsp
    obtain rfl := hsp.1
    obtain rfl := hacc rfl
    have hc := Frame.content_append [f] fs
    rw [Frame.content_data hctl] at hc
    rw [List.singleton_append] at hc
    refine .initial hctl hp (ih (fun h => by cases h) ?_)
    rwa [hc] at h
  | @more first first' f fs hctl hp _ ih =>
    have hsp := place_spec first f.header
    rw [hp] at hsp
    obtain ⟨⟨oc, rfl⟩, -⟩ := hsp
    have hc := Frame.content_append [f] fs
    rw [Frame.content_data hctl, List.singleton_append] at hc
    refine .intermediate hctl hp (ih (fun h => by cases h) ?_)
    rwa [hc, ← List.append_assoc] at h

theorem Leads.content_nil {first : Option OpCode} {gs : List (Frame cfg)}
    (hl : Leads first gs none) : Frame.content gs = [] := by
  generalize hfirst : (none : Option OpCode) = first' at hl
  induction hl with
  | refl => rfl
  | @ping first first' f fs h _ ih =>
    have := Frame.content_append [f] fs
    rwa [Frame.content_control (by rw [h]; rfl), ih hfirst] at this
  | data h hp hs _ => cases hfirst.trans (hs.fragments (fragments_empty cfg)).1
  | @more first first' f fs h hp hs _ =>
    have hsp := place_spec first f.header
    rw [hp] at hsp
    obtain ⟨⟨oc, rfl⟩, -⟩ := hsp
    cases hfirst.trans (hs.fragments (fragments_empty cfg)).1

theorem Message.legal {oc : OpCode} {bad : Option OpCode} {fs hs : List (Frame cfg)}
    {msgs : List (OpCode × List UInt8)} (hm : Message oc fs)
    (hmax : Frame.dataLen fs ≤ cfg.maxMessageSize.toNat) (h : Legal none [] hs msgs bad) :
    Legal none [] (fs ++ hs) ((oc, Frame.content fs) :: msgs) bad := by
  rw [← Frame.length_content] at hmax
  obtain ⟨gs, f, first, rfl, hl, hctl, hp⟩ := hm.leads
  rw [Frame.content_append, Frame.content_data hctl] at hmax ⊢
  rw [List.append_assoc]
  refine hl.legal (fun _ => rfl) ?_
  rcases hp with hp | ⟨hp, rfl⟩
  · have hsp := place_spec first f.header
    rw [hp] at hsp
    obtain rfl := hsp.1
    exact .last hctl hp hmax h
  · have hsp := place_spec first f.header
    rw [hp] at hsp
    obtain rfl := hsp.1
    rw [hl.content_nil] at hmax ⊢
    exact .single hctl hp hmax h

/-- The end of a sequence of messages: nothing, or a `Text` or `Binary` frame that comes while the
message that `gs` begins is open. -/
inductive Ending : List (Frame cfg) → List (Frame cfg) → Option OpCode → Prop
  | complete : Ending [] [] none
  | interrupted {gs : List (Frame cfg)} {f : Frame cfg}
      (hoc : f.header.opcode = .text ∨ f.header.opcode = .binary) (hv : Violates gs f)
      (hmax : Frame.dataLen (gs ++ [f]) ≤ cfg.maxMessageSize.toNat) :
      Ending gs [f] (some f.header.opcode)

theorem Ending.legal {gs tl : List (Frame cfg)} {bad : Option OpCode} (h : Ending gs tl bad) :
    Legal none [] (gs ++ tl) [] bad := by
  cases h with
  | complete => exact .nil
  | @interrupted gs f hoc hv hmax =>
    obtain ⟨hctl, hne⟩ := isControl_of_text_or_binary hoc
    obtain ⟨first, hl⟩ := hv.1.leads
    have hp := (violates_iff hl hctl).mp hv
    refine hl.legal (fun _ => rfl) ?_
    cases first with
    | none =>
      rw [place, if_neg hne] at hp
      split_ifs at hp
    | some oc =>
      rw [← Frame.length_content, Frame.content_append, Frame.content_data hctl] at hmax
      exact .unexpected hctl hne hmax

/-- **Pongs inserted anywhere into messages** make a legal sequence. -/
theorem legal_of_messages {fs gs tl : List (Frame cfg)} {msgs : List (OpCode × List (Frame cfg))}
    {bad : Option OpCode}
    (hm : ∀ m ∈ msgs, Message m.1 m.2 ∧ Frame.dataLen m.2 ≤ cfg.maxMessageSize.toNat)
    (hfs : withoutPongs fs = msgs.flatMap Prod.snd ++ gs) (hend : Ending gs tl bad) :
    Legal none [] (fs ++ tl) (msgs.map fun m => (m.1, Frame.content m.2)) bad := by
  have htl : tl = [] → bad = none := by
    rintro rfl
    cases hend
    rfl
  refine .of_withoutPongs htl ?_
  rw [hfs, List.append_assoc]
  clear hfs
  induction msgs with
  | nil => exact hend.legal
  | cons m msgs ih =>
    rw [List.flatMap_cons, List.map_cons, List.append_assoc]
    obtain ⟨hmsg, hmax⟩ := hm m List.mem_cons_self
    exact hmsg.legal hmax (ih fun m' h => hm m' (List.mem_cons_of_mem _ h))

theorem Legal.acc_nil {acc : List UInt8} {fs : List (Frame cfg)} {bad : Option OpCode}
    {msgs : List (OpCode × List UInt8)} (h : Legal none acc fs msgs bad) : acc = [] := by
  generalize hfirst : (none : Option OpCode) = first at h
  induction h with
  | nil => rfl
  | unexpected => cases hfirst
  | ping _ _ ih => exact ih hfirst
  | pong _ _ ih => exact ih hfirst
  | initial => rfl
  | intermediate => cases hfirst
  | last => cases hfirst
  | single => rfl

theorem Legal.length_le {first bad : Option OpCode} {acc : List UInt8} {fs : List (Frame cfg)}
    {msgs : List (OpCode × List UInt8)} (h : Legal first acc fs msgs bad) :
    acc.length ≤ cfg.maxMessageSize.toNat := by
  induction h with
  | nil => exact Nat.zero_le _
  | unexpected _ _ hmax =>
    rw [List.length_append] at hmax
    omega
  | ping _ _ ih => exact ih
  | pong _ _ ih => exact ih
  | initial => exact Nat.zero_le _
  | intermediate _ _ _ ih =>
    rw [List.length_append] at ih
    omega
  | last _ _ hmax =>
    rw [List.length_append] at hmax
    omega
  | single => exact Nat.zero_le _

/-- An open message is completed or interrupted. -/
theorem Legal.ne_nil {oc : OpCode} {bad : Option OpCode} {acc : List UInt8}
    {fs : List (Frame cfg)} {msgs : List (OpCode × List UInt8)}
    (h : Legal (some oc) acc fs msgs bad) : msgs ≠ [] ∨ bad ≠ none := by
  generalize hfirst : some oc = first at h
  induction h generalizing oc with
  | nil => cases hfirst
  | unexpected => exact Or.inr (by simp)
  | ping _ _ ih => exact ih hfirst
  | pong _ _ ih => exact ih hfirst
  | initial => cases hfirst
  | intermediate _ _ _ ih => exact ih rfl
  | last => exact Or.inl (by simp)
  | single => cases hfirst

theorem Legal.bad_ne {first bad : Option OpCode} {acc : List UInt8} {fs : List (Frame cfg)}
    {msgs : List (OpCode × List UInt8)} (h : Legal first acc fs msgs bad) :
    bad ≠ some .continue := by
  induction h with
  | nil => simp
  | unexpected _ hoc => simpa using hoc
  | ping _ _ ih => exact ih
  | pong _ _ ih => exact ih
  | initial _ _ _ ih => exact ih
  | intermediate _ _ _ ih => exact ih
  | last _ _ _ _ ih => exact ih
  | single _ _ _ _ ih => exact ih

/-! ## Where pongs stand -/

/-- Is a message open after the frames, if one was (or was not) before? -/
def openAfter : Bool → List (Frame cfg) → Bool
  | isOpen, [] => isOpen
  | isOpen, f :: fs => openAfter (if f.isData then !f.header.fin else isOpen) fs

/-- No pong of `fs` arrives while a message is open. -/
def PongsBetween (isOpen : Bool) (fs : List (Frame cfg)) : Prop :=
  ∀ gs f hs, fs = gs ++ f :: hs → f.header.opcode = .pong → openAfter isOpen gs = false

theorem PongsBetween.nil (isOpen : Bool) : PongsBetween isOpen ([] : List (Frame cfg)) := by
  intro gs f hs he
  simp at he

theorem PongsBetween.tail {isOpen : Bool} {f : Frame cfg} {fs : List (Frame cfg)}
    (h : PongsBetween isOpen (f :: fs)) :
    PongsBetween (if f.isData then !f.header.fin else isOpen) fs := by
  intro gs g hs he hg
  exact h (f :: gs) g hs (by rw [he]; rfl) hg

theorem PongsBetween.of_tail {isOpen : Bool} {f : Frame cfg} {fs : List (Frame cfg)}
    (h : f.header.opcode = .pong → isOpen = false)
    (ht : PongsBetween (if f.isData then !f.header.fin else isOpen) fs) :
    PongsBetween isOpen (f :: fs) := by
  intro gs g hs he hg
  cases gs with
  | nil =>
    obtain ⟨rfl, -⟩ : f = g ∧ fs = hs := by simpa using he
    exact h hg
  | cons g' gs =>
    obtain ⟨rfl, he'⟩ : f = g' ∧ fs = gs ++ g :: hs := by simpa using he
    exact ht gs g hs he' hg

/-! ## What the calls return -/

/-- The data messages among the outcomes. -/
def dataOf (outs : List Outcome) : List (Data × List UInt8) :=
  outs.filterMap fun o => match o.result with
    | .ok (.data d) => some (d, o.appended)
    | _ => none

/-- The pongs among the outcomes. -/
def pongsOf (outs : List Outcome) : List (List UInt8) :=
  outs.filterMap fun o => match o.result with
    | .ok (.pong p) => some p
    | _ => none

/-- The payloads of the pongs among the frames. -/
def pongPayloads (fs : List (Frame cfg)) : List (List UInt8) :=
  (fs.filter (·.header.opcode = .pong)).map Frame.payload

/-- The outcome is a data message, or a pong that leaves `message` alone. -/
def Outcome.IsDataOrPong (o : Outcome) : Prop :=
  (∃ d, o.result = .ok (.data d)) ∨ (∃ p, o.result = .ok (.pong p)) ∧ o.appended = []

/-- Only data messages and pongs are returned, and at the end, with the frame that ends at the
position `pos`, the error that the opcode `bad` is unexpected. -/
def EndsWith (bad : Option OpCode) (pos : ℕ) : List Outcome → Prop
  | [] => bad = none
  | o :: os => o.IsDataOrPong ∧ EndsWith bad pos os ∨
      ∃ oc, bad = some oc ∧ os = [] ∧ o.result = .error (.unexpectedOpCode oc) ∧ o.pos = pos

/-- A message as `receive` reports it. -/
def reported (m : OpCode × List UInt8) : Data × List UInt8 := (.ofOpCode m.1 m.2.length, m.2)

/-- The outcomes are the messages `msgs` and the pongs of `fs`, and the error that `bad` is
unexpected. -/
structure Reports (outs : List Outcome) (fs : List (Frame cfg))
    (msgs : List (OpCode × List UInt8)) (bad : Option OpCode) (pos : ℕ) : Prop where
  data : dataOf outs = msgs.map reported
  pongs : pongsOf outs = pongPayloads fs
  endsWith : EndsWith bad pos outs

section Reports

variable {o : Outcome} {outs : List Outcome} {f : Frame cfg} {fs : List (Frame cfg)}
  {msgs : List (OpCode × List UInt8)} {m : OpCode × List UInt8} {bad : Option OpCode} {pos : ℕ}

theorem pongPayloads_cons_of_ne (h : f.header.opcode ≠ .pong) (fs : List (Frame cfg)) :
    pongPayloads (f :: fs) = pongPayloads fs := by
  rw [pongPayloads, List.filter_cons_of_neg (by simp [h]), pongPayloads]

theorem pongPayloads_cons (h : f.header.opcode = .pong) (fs : List (Frame cfg)) :
    pongPayloads (f :: fs) = f.payload :: pongPayloads fs := by
  rw [pongPayloads, List.filter_cons_of_pos (by simp [h]), pongPayloads, List.map_cons]

theorem ne_pong_of_isControl {oc : OpCode} (h : oc.isControl = false) : oc ≠ .pong := by
  rintro rfl
  cases h

theorem reports_cons_iff (h : f.header.opcode ≠ .pong) :
    Reports outs (f :: fs) msgs bad pos ↔ Reports outs fs msgs bad pos := by
  constructor
  · rintro ⟨h₁, h₂, h₃⟩
    exact ⟨h₁, by rw [h₂, pongPayloads_cons_of_ne h], h₃⟩
  · rintro ⟨h₁, h₂, h₃⟩
    exact ⟨h₁, by rw [h₂, pongPayloads_cons_of_ne h], h₃⟩

theorem Reports.pong (hf : f.header.opcode = .pong) (hres : o.result = .ok (.pong f.payload))
    (happ : o.appended = []) (h : Reports outs fs msgs bad pos) :
    Reports (o :: outs) (f :: fs) msgs bad pos where
  data := by
    rw [← h.data]
    simp [dataOf, hres]
  pongs := by
    rw [pongPayloads_cons hf, ← h.pongs]
    simp [pongsOf, hres]
  endsWith := Or.inl ⟨Or.inr ⟨⟨_, hres⟩, happ⟩, h.endsWith⟩

theorem Reports.of_pong (hf : f.header.opcode = .pong) (hres : o.result = .ok (.pong f.payload))
    (h : Reports (o :: outs) (f :: fs) msgs bad pos) : Reports outs fs msgs bad pos where
  data := by
    rw [← h.data]
    simp [dataOf, hres]
  pongs := by
    have hp : pongsOf (o :: outs) = f.payload :: pongsOf outs := by simp [pongsOf, hres]
    have := h.pongs
    rw [hp, pongPayloads_cons hf] at this
    exact (List.cons.inj this).2
  endsWith := by
    rcases h.endsWith with ⟨-, h⟩ | ⟨oc, -, -, h, -⟩
    · exact h
    · cases hres.symm.trans h

theorem reports_data_iff (h : f.header.opcode ≠ .pong)
    (hres : o.result = .ok (.data (reported m).1)) (happ : o.appended = m.2) :
    Reports (o :: outs) (f :: fs) (m :: msgs) bad pos ↔ Reports outs fs msgs bad pos := by
  have hd : dataOf (o :: outs) = reported m :: dataOf outs := by simp [dataOf, hres, happ, reported]
  have hp : pongsOf (o :: outs) = pongsOf outs := by simp [pongsOf, hres]
  constructor
  · rintro ⟨h₁, h₂, h₃⟩
    rw [hd, List.map_cons] at h₁
    rw [hp, pongPayloads_cons_of_ne h] at h₂
    refine ⟨(List.cons.inj h₁).2, h₂, ?_⟩
    rcases h₃ with ⟨-, h₃⟩ | ⟨oc, -, -, h₃, -⟩
    · exact h₃
    · cases hres.symm.trans h₃
  · rintro ⟨h₁, h₂, h₃⟩
    exact ⟨by rw [hd, h₁]; rfl, by rw [hp, h₂, pongPayloads_cons_of_ne h],
      Or.inl ⟨Or.inl ⟨_, hres⟩, h₃⟩⟩

theorem Reports.of_error {oc : OpCode} (h : Reports (o :: outs) fs msgs bad pos)
    (he : o.result = .error (.unexpectedOpCode oc)) :
    bad = some oc := by
  rcases h.endsWith with ⟨⟨d, hd⟩ | ⟨⟨p, hp⟩, -⟩, -⟩ | ⟨oc', rfl, -, hoc, -⟩
  · cases he.symm.trans hd
  · cases he.symm.trans hp
  · cases he.symm.trans hoc
    rfl

theorem Reports.congr {outs' : List Outcome}
    (hs : outs'.map Outcome.silent = outs.map Outcome.silent) (h : Reports outs fs msgs bad pos) :
    Reports outs' fs msgs bad pos := by
  have hdata : ∀ os, dataOf (os.map Outcome.silent) = dataOf os := fun os => by
    rw [dataOf, List.filterMap_map]
    rfl
  have hpongs : ∀ os, pongsOf (os.map Outcome.silent) = pongsOf os := fun os => by
    rw [pongsOf, List.filterMap_map]
    rfl
  have hends : ∀ os, EndsWith bad pos (os.map Outcome.silent) ↔ EndsWith bad pos os := by
    intro os
    induction os with
    | nil => rfl
    | cons o os ih =>
      rw [List.map_cons, EndsWith, EndsWith, ih, List.map_eq_nil_iff]
      rfl
  exact ⟨by rw [← hdata, hs, hdata, h.data], by rw [← hpongs, hs, hpongs, h.pongs],
    (hends outs').mp (hs ▸ (hends outs).mpr h.endsWith)⟩

end Reports

theorem place_fin_initial {first : Option OpCode} {h : Header}
    (hp : place first h = .initial ∨ place first h = .intermediate) : h.fin = false := by
  have hsp := place_spec first h
  rcases hp with hp | hp <;> rw [hp] at hsp
  · exact hsp.2.2
  · exact hsp.2.2

namespace Feed

variable {E : Type} [Extension E]

/-- The locals of a call that has received `acc` of a message open since `first`. -/
def midway (first : Option OpCode) (acc : List UInt8) : Locals where
  firstFragmentOpcode := first
  length := acc.length
  messageLen := 0
  message := acc

/-- A call that began at `st₀` is at `st`, in front of the frames `fs`. -/
structure Midway (cfg : Config) (s : List UInt8) (st₀ st : Feed E) (first : Option OpCode)
    (acc : List UInt8) (fs : List (Frame cfg)) (rest : List UInt8) : Prop where
  steps : Steps cfg st₀ (.start []) st (midway first acc)
  isClosed : st.isClosed = false
  suffix : ∃ p, s = p ++ st.stream
  sent : st₀.sent <+: st.sent
  stream : st.stream = Frame.stream fs ++ rest

/-- The call that began at `st₀` has ended, in front of the frames `fs`. -/
structure Ended (cfg : Config) (s : List UInt8) (st₀ : Feed E) (result : Except Error Incoming)
    (x : List UInt8) (st : Feed E) (fs : List (Frame cfg)) (rest : List UInt8) : Prop where
  runs : Runs cfg st₀ (.start []) result st x
  sent : st₀.sent <+: st.sent
  fresh : Midway cfg s st st none [] fs rest

variable {s rest acc acc' : List UInt8} {st₀ st st' : Feed E} {first first' : Option OpCode}
  {f : Frame cfg} {fs : List (Frame cfg)}

theorem Midway.stream_cons (h : Midway cfg s st₀ st first acc (f :: fs) rest) :
    st.stream = f.bytes ++ (Frame.stream fs ++ rest) := by
  rw [h.stream, Frame.stream_cons, List.append_assoc]

theorem Midway.again (h : Midway cfg s st₀ st first acc (f :: fs) rest)
    (hstep : st.step cfg (midway first acc) = .again st' (midway first' acc'))
    (hst : st'.stream = Frame.stream fs ++ rest) (ho : st'.isClosed = false)
    (hsent : st.sent <+: st'.sent) : Midway cfg s st₀ st' first' acc' fs rest where
  steps := h.steps.trans (.single hstep)
  isClosed := ho
  suffix := by
    obtain ⟨p, hp⟩ := h.suffix
    exact ⟨p ++ f.bytes, by rw [hp, h.stream_cons, hst, List.append_assoc]⟩
  sent := h.sent.trans hsent
  stream := hst

theorem Midway.ret (h : Midway cfg s st₀ st first acc (f :: fs) rest)
    {result : Except Error Incoming} {x : List UInt8}
    (hstep : st.step cfg (midway first acc) =
      .ret result { st with stream := Frame.stream fs ++ rest } x) :
    Ended cfg s st₀ result x { st with stream := Frame.stream fs ++ rest } fs rest where
  runs := .of_steps h.steps (.of_ret hstep)
  sent := h.sent
  fresh := by
    obtain ⟨p, hp⟩ := h.suffix
    rw [h.stream_cons] at hp
    exact ⟨.refl _ _, h.isClosed, ⟨p ++ f.bytes, by rw [hp, List.append_assoc]⟩,
      List.prefix_refl _, rfl⟩

theorem Midway.ping (h : Midway cfg s st₀ st first acc (f :: fs) rest)
    (hf : f.header.opcode = .ping) : ∃ st', Midway cfg s st₀ st' first acc fs rest := by
  have hctl : f.header.opcode.isControl = true := by rw [hf]; rfl
  have hstep := step_ping f h.stream_cons h.isClosed hf (midway first acc)
  have hl : (midway first acc).past [f] first = midway first acc := by
    simp only [Locals.past, Frame.dataLen_control hctl, Frame.content_control hctl, Nat.add_zero,
      List.append_nil]
    rfl
  rw [show (midway first acc).firstFragmentOpcode = first from rfl, hl] at hstep
  exact ⟨_, h.again hstep rfl h.isClosed (List.prefix_append _ _)⟩

theorem Midway.pong (h : Midway cfg s st₀ st first acc (f :: fs) rest)
    (hf : f.header.opcode = .pong) :
    ∃ st', Ended cfg s st₀ (.ok (.pong f.payload)) acc st' fs rest := by
  refine ⟨_, h.ret ?_⟩
  rw [step_control f h.stream_cons h.isClosed (by rw [hf]; rfl), onControl, hf]
  rfl

theorem Midway.step_data (h : Midway cfg s st₀ st first acc (f :: fs) rest)
    (hctl : f.header.opcode.isControl = false)
    (hmax : (acc ++ f.payload).length ≤ cfg.maxMessageSize.toNat) :
    st.step cfg (midway first acc) = { st with stream := Frame.stream fs ++ rest }.onData cfg
      f.header (midway first (acc ++ f.payload)) := by
  rw [List.length_append, f.length_payload] at hmax
  rw [Feed.step_data f h.stream_cons h.isClosed hctl (midway first acc) hmax]
  simp only [midway, List.length_append, f.length_payload]

theorem Midway.initial (hx : cfg.hasExtensions = false)
    (h : Midway cfg s st₀ st first acc (f :: fs) rest) (hctl : f.header.opcode.isControl = false)
    (hmax : (acc ++ f.payload).length ≤ cfg.maxMessageSize.toNat)
    (hp : place first f.header = .initial) :
    ∃ st', Midway cfg s st₀ st' (some f.header.opcode) (acc ++ f.payload) fs rest := by
  have hstep := h.step_data hctl hmax
  simp only [onData, midway, hp, decode_plain hx] at hstep
  exact ⟨_, h.again hstep rfl h.isClosed (List.prefix_refl _)⟩

theorem Midway.intermediate (h : Midway cfg s st₀ st first acc (f :: fs) rest)
    (hctl : f.header.opcode.isControl = false)
    (hmax : (acc ++ f.payload).length ≤ cfg.maxMessageSize.toNat)
    (hp : place first f.header = .intermediate) :
    ∃ st', Midway cfg s st₀ st' first (acc ++ f.payload) fs rest := by
  have hstep := h.step_data hctl hmax
  simp only [onData, midway, hp] at hstep
  exact ⟨_, h.again hstep rfl h.isClosed (List.prefix_refl _)⟩

theorem Midway.complete (hx : cfg.hasExtensions = false)
    (h : Midway cfg s st₀ st first acc (f :: fs) rest) (hctl : f.header.opcode.isControl = false)
    (hmax : (acc ++ f.payload).length ≤ cfg.maxMessageSize.toNat) {oc : OpCode}
    (hp : place first f.header = .last oc ∨ place first f.header = .single ∧ f.header.opcode = oc) :
    ∃ st', Ended cfg s st₀ (.ok (.data (reported (oc, acc ++ f.payload)).1)) (acc ++ f.payload) st'
      fs rest := by
  refine ⟨_, h.ret ?_⟩
  have hsub : ∀ n, wrappingSub n 0 = n := fun n => by rw [wrappingSub, if_pos (Nat.zero_le n)]; rfl
  rw [h.step_data hctl hmax]
  rcases hp with hp | ⟨hp, rfl⟩
  all_goals
    simp only [onData, midway, hp, decode_plain hx, finish, hsub]
    rfl

theorem Midway.unexpected (h : Midway cfg s st₀ st first acc (f :: fs) rest)
    (hctl : f.header.opcode.isControl = false)
    (hmax : (acc ++ f.payload).length ≤ cfg.maxMessageSize.toNat)
    (hp : place first f.header = .unexpected) :
    ∃ st', Ended cfg s st₀ (.error (.unexpectedOpCode f.header.opcode)) (acc ++ f.payload) st'
      fs rest := by
  refine ⟨_, h.ret ?_⟩
  rw [h.step_data hctl hmax]
  simp only [onData, midway, hp]

/-! ## Calls in a row -/

variable {result : Except Error Incoming} {x : List UInt8}

theorem Ended.pos (h : Ended cfg s st₀ result x st fs rest) :
    st.stream = s.drop (s.length - st.stream.length) := by
  obtain ⟨p, rfl⟩ := h.fresh.suffix
  rw [List.length_append, Nat.add_sub_cancel, List.drop_left]

theorem Ended.receives {i : Incoming} (h : Ended cfg s st₀ (.ok i) x st fs rest)
    {outs : List Outcome} (houts : Receives cfg s st outs) :
    ∃ replies, Receives cfg s st₀ (⟨.ok i, x, replies, s.length - st.stream.length⟩ :: outs) := by
  obtain ⟨replies, hreplies⟩ := h.sent
  exact ⟨replies, st, h.runs, hreplies.symm, fun _ => ⟨h.pos, Nat.sub_le _ _⟩, houts⟩

theorem Ended.receives_error {e : Error} (h : Ended cfg s st₀ (.error e) x st fs rest) :
    ∃ replies, Receives cfg s st₀ [⟨.error e, x, replies, s.length - st.stream.length⟩] := by
  obtain ⟨replies, hreplies⟩ := h.sent
  exact ⟨replies, st, h.runs, hreplies.symm, fun _ => ⟨h.pos, Nat.sub_le _ _⟩, rfl⟩

theorem Ended.of_receives (h : Ended cfg s st₀ result x st fs rest) {o : Outcome}
    {outs : List Outcome} (houts : Receives cfg s st₀ (o :: outs)) :
    o.result = result ∧ o.appended = x ∧ ∀ i, result = .ok i → Receives cfg s st outs := by
  obtain ⟨st', hrun, -, -, hrest⟩ := houts
  obtain ⟨hres, rfl, happ⟩ := hrun.unique h.runs
  refine ⟨hres, happ, ?_⟩
  rintro i rfl
  rw [hres] at hrest
  exact hrest

/-- **Pongs between messages are transparent.** -/
theorem exists_reports (hx : cfg.hasExtensions = false) {bad : Option OpCode}
    {msgs : List (OpCode × List UInt8)} (hl : Legal first acc fs msgs bad)
    (hpb : PongsBetween first.isSome fs) (hmid : Midway cfg s st₀ st first acc fs rest) :
    ∃ outs, Receives cfg s st₀ outs ∧ Reports outs fs msgs bad (s.length - rest.length) := by
  induction hl generalizing st₀ st with
  | nil => exact ⟨[], trivial, rfl, rfl, rfl⟩
  | @unexpected oc acc f hctl hoc hmax =>
    have hp : place (some oc) f.header = .unexpected := by rw [place, if_neg hoc]
    obtain ⟨st', hend⟩ := hmid.unexpected hctl hmax hp
    obtain ⟨replies, hr⟩ := hend.receives_error
    have hrest : st'.stream = rest := hend.fresh.stream
    rw [hrest] at hr
    refine ⟨_, hr, rfl, ?_, Or.inr ⟨_, rfl, rfl, rfl, rfl⟩⟩
    rw [pongPayloads_cons_of_ne (ne_pong_of_isControl hctl)]
    rfl
  | @ping first bad acc f fs msgs hf hl ih =>
    obtain ⟨st', hmid'⟩ := hmid.ping hf
    have hpb' := hpb.tail
    rw [Frame.isData, hf] at hpb'
    obtain ⟨outs, hr, hrep⟩ := ih hpb' hmid'
    exact ⟨outs, hr, (reports_cons_iff (by rw [hf]; decide)).mpr hrep⟩
  | @pong first bad acc f fs msgs hf hl ih =>
    have hnone : first.isSome = false := hpb [] f fs rfl hf
    obtain rfl : first = none := by simpa using hnone
    obtain rfl := hl.acc_nil
    obtain ⟨st', hend⟩ := hmid.pong hf
    have hpb' := hpb.tail
    rw [Frame.isData, hf] at hpb'
    obtain ⟨outs, hr, hrep⟩ := ih hpb' hend.fresh
    obtain ⟨replies, hr'⟩ := hend.receives hr
    exact ⟨_, hr', hrep.pong hf rfl rfl⟩
  | @initial bad f fs msgs hctl hp hl ih =>
    obtain ⟨st', hmid'⟩ := hmid.initial hx hctl hl.length_le hp
    have hpb' := hpb.tail
    rw [Frame.isData, hctl, place_fin_initial (Or.inl hp)] at hpb'
    obtain ⟨outs, hr, hrep⟩ := ih hpb' hmid'
    exact ⟨outs, hr, (reports_cons_iff (ne_pong_of_isControl hctl)).mpr hrep⟩
  | @intermediate bad oc acc f fs msgs hctl hp hl ih =>
    obtain ⟨st', hmid'⟩ := hmid.intermediate hctl hl.length_le hp
    have hpb' := hpb.tail
    rw [Frame.isData, hctl, place_fin_initial (Or.inr hp)] at hpb'
    obtain ⟨outs, hr, hrep⟩ := ih hpb' hmid'
    exact ⟨outs, hr, (reports_cons_iff (ne_pong_of_isControl hctl)).mpr hrep⟩
  | @last bad oc acc f fs msgs hctl hp hmax hl ih =>
    obtain ⟨st', hend⟩ := hmid.complete hx hctl hmax (Or.inl hp)
    have hpb' := hpb.tail
    rw [Frame.isData, hctl, place_fin (Or.inr ⟨oc, hp⟩)] at hpb'
    obtain ⟨outs, hr, hrep⟩ := ih hpb' hend.fresh
    obtain ⟨replies, hr'⟩ := hend.receives hr
    exact ⟨_, hr', (reports_data_iff (ne_pong_of_isControl hctl) rfl rfl).mpr hrep⟩
  | @single bad f fs msgs hctl hp hmax hl ih =>
    obtain ⟨st', hend⟩ := hmid.complete hx hctl hmax (Or.inr ⟨hp, rfl⟩)
    have hpb' := hpb.tail
    rw [Frame.isData, hctl, place_fin (Or.inl hp)] at hpb'
    obtain ⟨outs, hr, hrep⟩ := ih hpb' hend.fresh
    obtain ⟨replies, hr'⟩ := hend.receives hr
    exact ⟨_, hr', (reports_data_iff (ne_pong_of_isControl hctl) rfl rfl).mpr hrep⟩

theorem Midway.runs (h : Midway cfg s st₀ st first acc fs rest)
    (hr : Runs cfg st₀ (.start []) result st' x) : Runs cfg st (midway first acc) result st' x := by
  obtain ⟨r, st'', x', hrun⟩ := exists_runs cfg st (midway first acc)
  obtain ⟨rfl, rfl, rfl⟩ := hr.unique (.of_steps h.steps hrun)
  exact hrun

theorem length_payload_le {n : ℕ} (h : (acc ++ f.payload).length ≤ n) :
    ([] ++ f.payload).length ≤ n := by
  rw [List.length_append] at h
  rw [List.nil_append]
  omega

theorem Midway.error_of_continue (h : Midway cfg s st₀ st none [] (f :: fs) rest)
    (hf : f.header.opcode = .continue)
    (hmax : ([] ++ f.payload).length ≤ cfg.maxMessageSize.toNat) {o : Outcome}
    {outs : List Outcome} (houts : Receives cfg s st₀ (o :: outs)) :
    o.result = .error (.unexpectedOpCode .continue) := by
  obtain ⟨st', hend⟩ := h.unexpected (by rw [hf]; rfl) hmax (by rw [place, if_pos hf])
  rw [(hend.of_receives houts).1, hf]

/-- **A call that begins while a message is open fails**, or takes the frame that interrupts the
message for the beginning of another one. -/
theorem not_reports_of_open (hx : cfg.hasExtensions = false) {bad : Option OpCode} {oc : OpCode}
    {msgs : List (OpCode × List UInt8)} {outs : List Outcome}
    (hl : Legal (some oc) acc fs msgs bad) (hmid : Midway cfg s st₀ st none [] fs rest)
    (houts : Receives cfg s st₀ outs) :
    ¬Reports outs fs msgs bad (s.length - rest.length) := by
  intro hrep
  have hne : outs ≠ [] := by
    rintro rfl
    rcases hl.ne_nil with h | h
    · exact h (List.map_eq_nil_iff.mp hrep.data.symm)
    · exact h hrep.endsWith
  obtain ⟨o, os, rfl⟩ := List.exists_cons_of_ne_nil hne
  generalize hfirst : some oc = first at hl
  induction hl generalizing oc st₀ st o os with
  | nil => cases hfirst
  | initial => cases hfirst
  | single => cases hfirst
  | @unexpected oc' acc f hctl hoc hmax =>
    have hmax' := length_payload_le hmax
    have hplace : place none f.header = .single ∨ place none f.header = .initial := by
      rw [place, if_neg hoc]
      split_ifs
      · exact Or.inl rfl
      · exact Or.inr rfl
    rcases hplace with hp | hp
    · -- an unfragmented message is delivered
      obtain ⟨st', hend⟩ := hmid.complete hx hctl hmax' (Or.inr ⟨hp, rfl⟩)
      obtain ⟨hres, -⟩ := hend.of_receives houts
      have := hrep.data
      simp [dataOf, hres] at this
    · -- a first fragment is followed by `rest`
      obtain ⟨st', hmid'⟩ := hmid.initial hx hctl hmax' hp
      obtain ⟨st'', hrun, -, hpos, -⟩ := houts
      rcases hrep.endsWith with ⟨⟨d, hd⟩ | ⟨⟨p, hp⟩, -⟩, -⟩ | ⟨oc, -, -, herr, hat⟩
      · have := hrep.data
        simp [dataOf, hd] at this
      · have := hrep.pongs
        rw [pongPayloads_cons_of_ne (ne_pong_of_isControl hctl)] at this
        simp [pongsOf, hp, pongPayloads] at this
      · have hsync : InSync o.result := by rw [herr]; trivial
        have hlt := (hmid'.runs hrun).length_le hsync
        have hst : st'.stream = rest := hmid'.stream
        obtain ⟨hst'', hle⟩ := hpos hsync
        obtain ⟨p, hs⟩ := hmid'.suffix
        have hlen := congrArg List.length hs
        rw [hst, List.length_append] at hlen
        rw [hst, hst'', List.length_drop, hat] at hlt
        omega
  | @ping first bad acc f fs msgs hf hl ih =>
    obtain ⟨st', hmid'⟩ := hmid.ping hf
    exact ih hmid' o os houts ((reports_cons_iff (by rw [hf]; decide)).mp hrep) hne hfirst
  | @pong first bad acc f fs msgs hf hl ih =>
    subst hfirst
    obtain ⟨st', hend⟩ := hmid.pong hf
    obtain ⟨hres, -, hrest⟩ := hend.of_receives houts
    have hrep' := hrep.of_pong hf hres
    cases os with
    | nil =>
      rcases hl.ne_nil with h | h
      · exact h (List.map_eq_nil_iff.mp hrep'.data.symm)
      · exact h hrep'.endsWith
    | cons o' os => exact ih hend.fresh o' os (hrest _ rfl) hrep' (by simp) rfl
  | @intermediate bad oc' acc f fs msgs hctl hp hl ih =>
    have hsp := place_spec (some oc') f.header
    rw [hp] at hsp
    have he := hmid.error_of_continue hsp.2.1 (length_payload_le hl.length_le) houts
    exact hl.bad_ne (hrep.of_error he)
  | @last bad oc' acc f fs msgs hctl hp hmax hl ih =>
    have hsp := place_spec (some oc') f.header
    rw [hp] at hsp
    have he := hmid.error_of_continue hsp.2.1 (length_payload_le hmax) houts
    exact hl.bad_ne (hrep.of_error he)

/-- **Only pongs between messages are transparent.** -/
theorem pongsBetween_of_reports (hx : cfg.hasExtensions = false) {bad : Option OpCode}
    {msgs : List (OpCode × List UInt8)} (hl : Legal first acc fs msgs bad)
    (hmid : Midway cfg s st₀ st first acc fs rest) {outs : List Outcome}
    (houts : Receives cfg s st₀ outs)
    (hrep : Reports outs fs msgs bad (s.length - rest.length)) :
    PongsBetween first.isSome fs := by
  induction hl generalizing st₀ st outs with
  | nil => exact .nil _
  | @unexpected oc acc f hctl hoc hmax =>
    exact .of_tail (fun hf => absurd hf (ne_pong_of_isControl hctl)) (.nil _)
  | @ping first bad acc f fs msgs hf hl ih =>
    obtain ⟨st', hmid'⟩ := hmid.ping hf
    refine .of_tail (fun hf' => by cases hf.symm.trans hf') ?_
    rw [Frame.isData, hf]
    exact ih hmid' houts ((reports_cons_iff (by rw [hf]; decide)).mp hrep)
  | @pong first bad acc f fs msgs hf hl ih =>
    obtain ⟨st', hend⟩ := hmid.pong hf
    cases outs with
    | nil =>
      have := hrep.pongs
      rw [pongPayloads_cons hf] at this
      cases this
    | cons o os =>
      obtain ⟨hres, -, hrest⟩ := hend.of_receives houts
      cases first with
      | none =>
        obtain rfl := hl.acc_nil
        refine .of_tail (fun _ => rfl) ?_
        rw [Frame.isData, hf]
        exact ih hend.fresh (hrest _ rfl) (hrep.of_pong hf hres)
      | some oc =>
        exact absurd (hrep.of_pong hf hres) (not_reports_of_open hx hl hend.fresh (hrest _ rfl))
  | @initial bad f fs msgs hctl hp hl ih =>
    obtain ⟨st', hmid'⟩ := hmid.initial hx hctl hl.length_le hp
    refine .of_tail (fun hf => absurd hf (ne_pong_of_isControl hctl)) ?_
    rw [Frame.isData, hctl, place_fin_initial (Or.inl hp)]
    exact ih hmid' houts ((reports_cons_iff (ne_pong_of_isControl hctl)).mp hrep)
  | @intermediate bad oc acc f fs msgs hctl hp hl ih =>
    obtain ⟨st', hmid'⟩ := hmid.intermediate hctl hl.length_le hp
    refine .of_tail (fun hf => absurd hf (ne_pong_of_isControl hctl)) ?_
    rw [Frame.isData, hctl, place_fin_initial (Or.inr hp)]
    exact ih hmid' houts ((reports_cons_iff (ne_pong_of_isControl hctl)).mp hrep)
  | @last bad oc acc f fs msgs hctl hp hmax hl ih =>
    obtain ⟨st', hend⟩ := hmid.complete hx hctl hmax (Or.inl hp)
    refine .of_tail (fun hf => absurd hf (ne_pong_of_isControl hctl)) ?_
    rw [Frame.isData, hctl, place_fin (Or.inr ⟨oc, hp⟩)]
    cases outs with
    | nil => cases hrep.data
    | cons o os =>
      obtain ⟨hres, happ, hrest⟩ := hend.of_receives houts
      exact ih hend.fresh (hrest _ rfl)
        ((reports_data_iff (ne_pong_of_isControl hctl) hres happ).mp hrep)
  | @single bad f fs msgs hctl hp hmax hl ih =>
    obtain ⟨st', hend⟩ := hmid.complete hx hctl hmax (Or.inr ⟨hp, rfl⟩)
    refine .of_tail (fun hf => absurd hf (ne_pong_of_isControl hctl)) ?_
    rw [Frame.isData, hctl, place_fin (Or.inl hp)]
    cases outs with
    | nil => cases hrep.data
    | cons o os =>
      obtain ⟨hres, happ, hrest⟩ := hend.of_receives houts
      exact ih hend.fresh (hrest _ rfl)
        ((reports_data_iff (ne_pong_of_isControl hctl) hres happ).mp hrep)

end Feed

/-- The results of `receiveData`: those of `receive` without the pongs. -/
def dataResults (outs : List Outcome) : List (Except Error Data × List UInt8) :=
  outs.filterMap fun o => match o.result with
    | .ok (.data d) => some (.ok d, o.appended)
    | .ok _ => none
    | .error e => some (.error e, o.appended)

/-- Calls of `receiveData` with the vectors `ms`, up to the first error, return the results and
append the bytes in the list. -/
def Receiver.ReceivesData {E : Type} [Extension E] (r : Receiver) (w : World (List E)) :
    List (List UInt8) → List (Except Error Data × List UInt8) → Prop
  | [], [] => True
  | m :: ms, (result, x) :: rs =>
    ∃ r' w', (r.receiveData m).run w = (some ⟨result, r', m ++ x⟩, w') ∧
      match result with
      | .ok _ => ReceivesData r' w' ms rs
      | .error _ => ms = [] ∧ rs = []
  | _, _ => False

/-- The calls after one with the given result. -/
def Receiver.GoesOn {E : Type} [Extension E] (r : Receiver) (w : World (List E))
    (ms : List (List UInt8)) (rs : List (Except Error Data × List UInt8)) :
    Except Error Data → Prop
  | .ok _ => r.ReceivesData w ms rs
  | .error _ => ms = [] ∧ rs = []

namespace Feed

variable {E : Type} [Extension E] {s : List UInt8} {st : Feed E} {r₀ r : Receiver}
  {w₀ w : World (List E)} {bad : Option OpCode} {pos fuel : ℕ}

theorem receivesData_loop (hx : r₀.hasExtensions = false) (hw : w₀.Healthy) {outs : List Outcome}
    (hr : Receives r₀.config s st outs) (hend : EndsWith bad pos outs) (hT : Tracks r₀ w₀ r w st)
    (hf : r.remaining < fuel) {result : Except Error Data} {x : List UInt8}
    {rs : List (Except Error Data × List UInt8)} (hrs : dataResults outs = (result, x) :: rs)
    (m : List UInt8) {ms : List (List UInt8)} (hms : ms.length = rs.length) :
    ∃ r' w', (r.receiveDataLoop fuel m).run w = (some ⟨result, r', m ++ x⟩, w') ∧
      r'.GoesOn w' ms rs result := by
  induction outs generalizing st r w fuel result x rs m ms with
  | nil => cases hrs
  | cons o os ih =>
    obtain ⟨fuel, rfl⟩ : ∃ n, fuel = n + 1 := ⟨fuel - 1, by omega⟩
    obtain ⟨st', hrun, -, -, hrest⟩ := hr
    rcases sim_receive (hrun.under hx m) hT with hb | ⟨r', w', hout, hT', -⟩
    · exact absurd hw hb.1
    rw [Receiver.receiveDataLoop]
    simp only [Fiber.run_bind, hout]
    rcases hend with ⟨hdp, hend⟩ | ⟨oc, -, rfl, herr, -⟩
    · rcases hdp with ⟨d, hd⟩ | ⟨⟨p, hp⟩, happ⟩
      · rw [hd] at hrest
        have hos : dataResults (o :: os) = (.ok d, o.appended) :: dataResults os := by
          simp [dataResults, hd]
        cases hos.symm.trans hrs
        have hT'' := hT' (by rw [hd]; trivial)
        refine ⟨r', w', by rw [hd]; rfl, ?_⟩
        rw [Receiver.GoesOn]
        rcases hos' : dataResults os with _ | ⟨⟨result, x⟩, rs⟩
        · rw [hos'] at hms
          rw [List.length_eq_zero_iff.mp hms]
          trivial
        · rw [hos'] at hms
          obtain ⟨m', ms', rfl⟩ := List.exists_cons_of_length_eq_add_one hms
          exact ih hrest hend hT'' (Nat.lt_succ_self _) hos' m' (Nat.succ.inj hms)
      · rw [hp] at hrest
        have hos : dataResults (o :: os) = dataResults os := by simp [dataResults, hp]
        have hsync : InSync o.result := by rw [hp]; trivial
        have hlt := hrun.length_le hsync
        rw [← hT.stream, ← (hT' hsync).stream, r.length_stream, r'.length_stream] at hlt
        rw [hos] at hrs
        rw [hp, happ, List.append_nil]
        exact ih hrest hend (hT' hsync) (show r'.remaining < fuel by omega) hrs m hms
    · have hos : dataResults [o] = [(.error (.unexpectedOpCode oc), o.appended)] := by
        simp [dataResults, herr]
      cases hos.symm.trans hrs
      refine ⟨r', w', by rw [herr]; rfl, List.length_eq_zero_iff.mp hms, rfl⟩

/-- **The calls of `receiveData` skip the pongs.** -/
theorem sim_receivesData (h : r.Ready w) {outs : List Outcome}
    (hr : Receives r.config s (ofReceiver r ([] : List E)) outs) (hend : EndsWith bad pos outs)
    {ms : List (List UInt8)} (hms : ms.length = (dataResults outs).length) :
    r.ReceivesData w ms (dataResults outs) := by
  have hT : Tracks r w r w (ofReceiver r ([] : List E)) :=
    h.shared ▸ .start h.clean h.isClosed w
  rcases hos : dataResults outs with _ | ⟨⟨result, x⟩, rs⟩
  · rw [hos] at hms
    rw [List.length_eq_zero_iff.mp hms]
    trivial
  · rw [hos] at hms
    obtain ⟨m, ms, rfl⟩ := List.exists_cons_of_length_eq_add_one hms
    exact receivesData_loop h.hasExtensions h.healthy hr hend hT (Nat.lt_succ_self _) hos m
      (Nat.succ.inj hms)

end Feed

/-- The messages `msgs` and the pongs of `fs` are delivered, and an interruption by the opcode
`bad` is reported. The calls of `receive` return the messages, the pongs and the interruption; the
calls of `receiveData` return the messages and the interruption. -/
def PongTransparent {E : Type} [Extension E] (r : Receiver) (w : World (List E))
    (fs : List (Frame r.config)) (msgs : List (OpCode × List UInt8)) (bad : Option OpCode) : Prop :=
  ∃ outs : List Outcome, Reports outs fs msgs bad (Frame.stream fs).length ∧
    (∀ ms, ms.length = outs.length → r.Receives r.stream w ms outs) ∧
    ∀ ms, ms.length = (dataResults outs).length → r.ReceivesData w ms (dataResults outs)

/-- **When pongs are transparent.** A ready receiver without extensions gets messages, at the end
possibly a `Text` or `Binary` frame while a message is open, and pongs inserted anywhere. The
messages, the pongs and the interruption are reported just when no pong comes while a message is
open. -/
theorem pongTransparent_iff {E : Type} [Extension E] {r : Receiver} {w : World (List E)}
    (h : r.Ready w) (fs : List (Frame r.config)) {gs tl : List (Frame r.config)}
    {msgs : List (OpCode × List (Frame r.config))} {bad : Option OpCode}
    (hm : ∀ m ∈ msgs, Message m.1 m.2 ∧ Frame.dataLen m.2 ≤ r.maxMessageSize.toNat)
    (hfs : withoutPongs fs = msgs.flatMap Prod.snd ++ gs) (hend : Ending gs tl bad)
    (rest : List UInt8) (hs : r.stream = Frame.stream (fs ++ tl) ++ rest) :
    PongTransparent r w (fs ++ tl) (msgs.map fun m => (m.1, Frame.content m.2)) bad ↔
      PongsBetween false (fs ++ tl) := by
  have hl := legal_of_messages hm hfs hend
  have hT : Feed.Tracks r w r w (Feed.ofReceiver r ([] : List E)) :=
    h.shared ▸ .start h.clean h.isClosed w
  have hmid : Feed.Midway r.config r.stream (Feed.ofReceiver r ([] : List E))
      (Feed.ofReceiver r []) none [] (fs ++ tl) rest :=
    ⟨.refl _ _, h.isClosed, ⟨[], rfl⟩, List.prefix_refl _, hs⟩
  have hpos : r.stream.length - rest.length = (Frame.stream (fs ++ tl)).length := by
    rw [hs, List.length_append, Nat.add_sub_cancel]
  constructor
  · rintro ⟨outs, hrep, hr, -⟩
    obtain ⟨outs', hr', hsil⟩ := Feed.exists_of_receives h.hasExtensions h.healthy
      (hr (List.replicate outs.length []) List.length_replicate) hT
    rw [← hpos] at hrep
    exact Feed.pongsBetween_of_reports h.hasExtensions hl hmid hr' (hrep.congr hsil)
  · intro hpb
    obtain ⟨outs, hr, hrep⟩ := Feed.exists_reports h.hasExtensions hl hpb hmid
    rw [hpos] at hrep
    exact ⟨outs, hrep, fun ms hms => Feed.sim_receives h hr hms,
      fun ms hms => Feed.sim_receivesData h hr hrep.endsWith hms⟩

/-- A server's configuration. -/
def serverConfig : Config := (Builder.new [] .server : Builder Empty).finish.2.1.config

/-- A server that gets the frames `fs`. -/
def serverOf (fs : List (Frame serverConfig)) : Builder Empty :=
  Builder.new [.data (Frame.stream fs)] .server

/-- The first fragment of a text message. -/
def fragmentA : Frame serverConfig :=
  ⟨[0x01, 1], { Header.new .text with fin := false, payloadLen := 1 }, [65], rfl, rfl⟩

/-- The last fragment of a message. -/
def fragmentB : Frame serverConfig :=
  ⟨[0x80, 1], { Header.new .continue with payloadLen := 1 }, [66], rfl, rfl⟩

/-- An unsolicited pong. -/
def pongC : Frame serverConfig :=
  ⟨[0x8A, 1], { Header.new .pong with payloadLen := 1 }, [67], rfl, rfl⟩

/-- A text message of one frame. -/
def textD : Frame serverConfig :=
  ⟨[0x81, 1], { Header.new .text with payloadLen := 1 }, [68], rfl, rfl⟩

/-- Pongs before and after a fragmented message. -/
theorem pongTransparent_around :
    let fs := [pongC, fragmentA, fragmentB, pongC]
    PongTransparent (serverOf fs).finish.2.1 ((serverOf fs).world []) fs [(.text, [65, 66])]
      none := by
  intro fs
  have hb : (serverOf fs).finish.2.1.Ready ((serverOf fs).world []) := ready_finish rfl clean_nil.data []
  have hfs : Message .text [fragmentA, fragmentB] :=
    Message.fragmented (f := fragmentA) (Or.inl rfl) rfl (.last rfl rfl)
  have hm : ∀ m ∈ [(OpCode.text, [fragmentA, fragmentB])],
      Message m.1 m.2 ∧ Frame.dataLen m.2 ≤ (serverOf fs).finish.2.1.maxMessageSize.toNat := by
    intro m h
    obtain rfl := List.mem_singleton.mp h
    exact ⟨hfs, by decide⟩
  have hpb : PongsBetween false fs :=
    .of_tail (fun _ => rfl) (.of_tail (fun h => by cases h) (.of_tail (fun h => by cases h)
      (.of_tail (fun _ => rfl) (.nil _))))
  exact (pongTransparent_iff hb fs hm rfl .complete [] rfl).mpr hpb

/-- A pong that comes while part of a message is in `message` is not transparent. -/
theorem not_pongTransparent_of_partial {E : Type} [Extension E] {r r₁ : Receiver}
    {w w₁ : World (List E)} {p x : List UInt8} (hx : x ≠ [])
    (h : (r.receive []).run w = (some ⟨.ok (.pong p), r₁, x⟩, w₁)) {fs : List (Frame r.config)}
    {msgs : List (OpCode × List UInt8)} {bad : Option OpCode} (hne : msgs ≠ [] ∨ bad ≠ none) :
    ¬PongTransparent r w fs msgs bad := by
  rintro ⟨outs, hrep, hr, -⟩
  cases outs with
  | nil =>
    rcases hne with hne | hne
    · exact hne (List.map_eq_nil_iff.mp hrep.data.symm)
    · exact hne hrep.endsWith
  | cons o os =>
    obtain ⟨r', w', hout, -⟩ := hr ([] :: List.replicate os.length []) (by simp)
    have heq := h.symm.trans hout
    rw [Prod.mk.injEq, Option.some.injEq, Received.mk.injEq, List.nil_append] at heq
    obtain ⟨⟨hres, -, rfl⟩, -⟩ := heq
    rcases hrep.endsWith with ⟨⟨d, hd⟩ | ⟨-, happ⟩, -⟩ | ⟨oc, -, -, herr, -⟩
    · cases hres.trans hd
    · exact hx happ
    · cases hres.trans herr

/-- A pong between two fragments: the second fragment is unexpected. A pong between a fragment and
another text message: the message is delivered. -/
theorem not_pongTransparent_between :
    let b := serverOf [fragmentA, pongC, fragmentB]
    let b' := serverOf [fragmentA, pongC, textD]
    (∃ r₁ w₁ r₂ w₂,
        (b.finish.2.1.receive []).run (b.world []) = (some ⟨.ok (.pong [67]), r₁, [65]⟩, w₁) ∧
        (r₁.receive []).run w₁ =
          (some ⟨.error (.unexpectedOpCode .continue), r₂, [66]⟩, w₂)) ∧
      ¬PongTransparent b.finish.2.1 (b.world []) [fragmentA, pongC, fragmentB] [(.text, [65, 66])]
        none ∧
      (∃ r₁ w₁ r₂ w₂,
        (b'.finish.2.1.receive []).run (b'.world []) = (some ⟨.ok (.pong [67]), r₁, [65]⟩, w₁) ∧
        (r₁.receive []).run w₁ = (some ⟨.ok (.data (.text 1)), r₂, [68]⟩, w₂)) ∧
      ¬PongTransparent b'.finish.2.1 (b'.world []) [fragmentA, pongC, textD] [] (some .text) := by
  refine ⟨⟨_, _, _, _, rfl, rfl⟩, ?_, ⟨_, _, _, _, rfl, rfl⟩, ?_⟩
  · exact not_pongTransparent_of_partial (List.cons_ne_nil 65 []) rfl (Or.inl (by simp))
  · exact not_pongTransparent_of_partial (List.cons_ne_nil 65 []) rfl (Or.inr (by simp))

end Soketto
