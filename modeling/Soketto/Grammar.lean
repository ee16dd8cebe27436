import Soketto.Feed.Frames

/-!
# The grammar of fragmented messages

* `Message oc fs`: the frames of one message of the kind `oc`,
  `Ping* (fin Text|Binary | non-fin Text|Binary (Ping | non-fin Continue)* fin Continue)`.
* `Violates fs f`: the frame `f` is the first one that does not fit the grammar.
* **`exists_messages`**, **`messages_unique`**: frames are split into messages, and in one way only.
* `runs_message`, `runs_violates`: what a call does with a message, and with a violation.
* **`receive_grammar`**: every sequence of frames without `Pong` and `Close` is received message by
  message, up to its first violation.
-/

set_option autoImplicit false

namespace Soketto

open Incremental Chunked

variable {cfg : Config}

/-- What follows a first fragment: `(Ping | non-fin Continue)* fin Continue`. -/
inductive Fragments : List (Frame cfg) → Prop
  | last {f : Frame cfg} (hoc : f.header.opcode = .continue) (hfin : f.header.fin = true) :
      Fragments [f]
  | more {f : Frame cfg} {fs : List (Frame cfg)}
      (h : f.header.opcode = .ping ∨ f.header.opcode = .continue ∧ f.header.fin = false)
      (hs : Fragments fs) : Fragments (f :: fs)

/-- The frames of one message of the kind `oc`. -/
inductive Message : OpCode → List (Frame cfg) → Prop
  | ping {oc : OpCode} {f : Frame cfg} {fs : List (Frame cfg)} (h : f.header.opcode = .ping)
      (hs : Message oc fs) : Message oc (f :: fs)
  | single {f : Frame cfg} (hoc : f.header.opcode = .text ∨ f.header.opcode = .binary)
      (hfin : f.header.fin = true) : Message f.header.opcode [f]
  | fragmented {f : Frame cfg} {fs : List (Frame cfg)}
      (hoc : f.header.opcode = .text ∨ f.header.opcode = .binary) (hfin : f.header.fin = false)
      (hs : Fragments fs) : Message f.header.opcode (f :: fs)

/-- The frames `fs` begin a message. -/
def Begins (fs : List (Frame cfg)) : Prop := ∃ oc gs, gs ≠ [] ∧ Message oc (fs ++ gs)

/-- After the frames `fs`, which begin a message, no message goes on with `f`. -/
def Violates (fs : List (Frame cfg)) (f : Frame cfg) : Prop :=
  Begins fs ∧ ¬∃ oc gs, Message oc (fs ++ f :: gs)

/-! ## Messages and the position of their frames -/

namespace Frame

theorem text_or_binary {f : Frame cfg} (hctl : f.header.opcode.isControl = false)
    (hne : f.header.opcode ≠ .continue) :
    f.header.opcode = .text ∨ f.header.opcode = .binary := by
  have hopcodes : ∀ oc : OpCode, oc.isControl = false → oc.isReserved = false →
      oc ≠ .continue → oc = .text ∨ oc = .binary := by
    intro oc
    cases oc <;> decide
  exact hopcodes _ hctl f.accepts.not_reserved hne

theorem accepts_new (c : Codec) {oc : OpCode} (hoc : oc.isReserved = false) :
    c.Accepts (Header.new oc) where
  not_reserved := hoc
  fin := fun _ => rfl
  control_len := fun _ => Nat.zero_le _
  rsv1 := fun h => by cases h
  rsv2 := fun h => by cases h
  rsv3 := fun h => by cases h
  len := Nat.zero_le _
  mask := fun _ => rfl

/-- The final frame without payload of an opcode. -/
def empty (cfg : Config) (oc : OpCode) (hoc : oc.isReserved = false) : Frame cfg :=
  ofHeader (Header.new oc) (accepts_new cfg.codec hoc) [] rfl

end Frame

theorem fragments_empty (cfg : Config) : Fragments [Frame.empty cfg .continue rfl] := .last rfl rfl

theorem isControl_of_text_or_binary {oc : OpCode} (h : oc = .text ∨ oc = .binary) :
    oc.isControl = false ∧ oc ≠ .continue := by
  rcases h with rfl | rfl <;> exact ⟨rfl, by decide⟩

theorem Fragments.leads {fs : List (Frame cfg)} (h : Fragments fs) (oc : OpCode) :
    ∃ gs f, fs = gs ++ [f] ∧ Leads (some oc) gs (some oc) ∧ f.header.opcode.isControl = false ∧
      place (some oc) f.header = .last oc := by
  induction h with
  | @last f hoc hfin =>
    exact ⟨[], f, rfl, .refl _, by rw [hoc]; rfl, by simp [place, hoc, hfin]⟩
  | @more f fs h _ ih =>
    obtain ⟨gs, g, rfl, hl, hctl, hp⟩ := ih
    refine ⟨f :: gs, g, rfl, ?_, hctl, hp⟩
    rcases h with h | ⟨hoc, hfin⟩
    · exact .ping h hl
    · exact .more (by rw [hoc]; rfl) (by simp [place, hoc, hfin]) hl

theorem Message.leads {oc : OpCode} {fs : List (Frame cfg)} (h : Message oc fs) :
    ∃ gs f first, fs = gs ++ [f] ∧ Leads none gs first ∧ f.header.opcode.isControl = false ∧
      (place first f.header = .last oc ∨ place first f.header = .single ∧ f.header.opcode = oc) := by
  induction h with
  | @ping oc f fs h _ ih =>
    obtain ⟨gs, g, first, rfl, hl, hctl, hp⟩ := ih
    exact ⟨f :: gs, g, first, rfl, .ping h hl, hctl, hp⟩
  | @single f hoc hfin =>
    obtain ⟨hctl, hne⟩ := isControl_of_text_or_binary hoc
    exact ⟨[], f, none, rfl, .refl _, hctl, Or.inr ⟨by simp [place, hne, hfin], rfl⟩⟩
  | @fragmented f fs hoc hfin hs =>
    obtain ⟨hctl, hne⟩ := isControl_of_text_or_binary hoc
    obtain ⟨gs, g, rfl, hl, hctl', hp⟩ := hs.leads f.header.opcode
    exact ⟨f :: gs, g, _, rfl, .data hctl (by simp [place, hne, hfin]) hl, hctl', Or.inl hp⟩

theorem Leads.unique {first a b : Option OpCode} {fs : List (Frame cfg)} (ha : Leads first fs a)
    (hb : Leads first fs b) : a = b := by
  induction ha with
  | refl => cases hb; rfl
  | ping h _ ih =>
    cases hb with
    | ping _ hb => exact ih hb
    | data h' => rw [h] at h'; cases h'
    | more h' => rw [h] at h'; cases h'
  | data h hp _ ih =>
    cases hb with
    | ping h' => rw [h'] at h; cases h
    | data _ _ hb => exact ih hb
    | more _ hp' => cases hp.symm.trans hp'
  | more h hp _ ih =>
    cases hb with
    | ping h' => rw [h'] at h; cases h
    | data _ hp' => cases hp.symm.trans hp'
    | more _ _ hb => exact ih hb

/-! ## Completing a message -/

/-- The opcode of a frame in the position of a fragment. -/
theorem place_spec (first : Option OpCode) (h : Header) :
    match place first h with
    | .unexpected => True
    | .initial => first = none ∧ h.opcode ≠ .continue ∧ h.fin = false
    | .intermediate => (∃ oc, first = some oc) ∧ h.opcode = .continue ∧ h.fin = false
    | .last oc => first = some oc ∧ h.opcode = .continue ∧ h.fin = true
    | .single => first = none ∧ h.opcode ≠ .continue ∧ h.fin = true := by
  unfold place
  by_cases hoc : h.opcode = .continue <;> cases first <;> cases hf : h.fin <;> simp [hoc]

theorem Leads.fragments {first' : Option OpCode} {oc : OpCode} {gs hs : List (Frame cfg)}
    (hl : Leads (some oc) gs first') (hf : Fragments hs) :
    first' = some oc ∧ Fragments (gs ++ hs) := by
  generalize hfirst : some oc = first at hl
  induction hl with
  | refl => exact ⟨rfl, hf⟩
  | ping h _ ih =>
    obtain ⟨h₁, h₂⟩ := ih hfirst
    exact ⟨h₁, .more (Or.inl h) h₂⟩
  | @data first first' f fs h hp _ ih =>
    have := place_spec first f.header
    rw [hp] at this
    rw [← hfirst] at this
    cases this.1
  | @more first first' f fs h hp _ ih =>
    have := place_spec first f.header
    rw [hp] at this
    obtain ⟨h₁, h₂⟩ := ih hfirst
    exact ⟨h₁, .more (Or.inr this.2) h₂⟩

theorem Leads.message {first' : Option OpCode} {oc : OpCode} {gs hs : List (Frame cfg)}
    (hl : Leads none gs first')
    (hm : first' = none ∧ Message oc hs ∨ first' = some oc ∧ Fragments hs) :
    Message oc (gs ++ hs) := by
  generalize hfirst : none = first at hl
  induction hl with
  | refl first =>
    subst hfirst
    rcases hm with ⟨-, hm⟩ | ⟨h, -⟩
    · exact hm
    · cases h
  | ping h _ ih => exact .ping h (ih hm hfirst)
  | @data first first' f fs h hp hl ih =>
    have hsp := place_spec first f.header
    rw [hp] at hsp
    have htb := Frame.text_or_binary h hsp.2.1
    rcases hm with ⟨rfl, -⟩ | ⟨rfl, hf⟩
    · cases (hl.fragments (fragments_empty cfg)).1
    · obtain ⟨h₁, h₂⟩ := hl.fragments hf
      cases h₁
      exact .fragmented htb hsp.2.2 h₂
  | @more first first' f fs h hp _ ih =>
    have hsp := place_spec first f.header
    rw [hp, ← hfirst] at hsp
    obtain ⟨⟨oc, h⟩, -⟩ := hsp
    cases h

theorem Leads.begins {first : Option OpCode} {fs : List (Frame cfg)} (hl : Leads none fs first) :
    Begins fs := by
  cases first with
  | some oc => exact ⟨oc, _, by simp, hl.message (Or.inr ⟨rfl, fragments_empty cfg⟩)⟩
  | none =>
    let f := Frame.empty cfg .text rfl
    have hm : Message f.header.opcode [f] := .single (Or.inl rfl) rfl
    exact ⟨_, _, by simp, hl.message (Or.inl ⟨rfl, hm⟩)⟩

theorem Begins.leads {fs : List (Frame cfg)} (h : Begins fs) : ∃ first, Leads none fs first := by
  obtain ⟨oc, gs, hne, hm⟩ := h
  obtain ⟨hs, f, first, he, hl, -⟩ := hm.leads
  -- the last frame of the message is one of `gs`
  obtain ⟨gs', g, rfl⟩ := (List.eq_nil_or_concat' gs).resolve_left hne
  rw [← List.append_assoc] at he
  obtain ⟨rfl, -⟩ := List.append_inj' he rfl
  obtain ⟨first₁, h₁, -⟩ := hl.of_append
  exact ⟨first₁, h₁⟩

/-- **A data frame violates the grammar just when it is unexpected.** -/
theorem violates_iff {first : Option OpCode} {fs : List (Frame cfg)} {f : Frame cfg}
    (hl : Leads none fs first) (hctl : f.header.opcode.isControl = false) :
    Violates fs f ↔ place first f.header = .unexpected := by
  constructor
  · rintro ⟨-, hno⟩
    have hsp := place_spec first f.header
    cases hp : place first f.header with
    | unexpected => rfl
    | initial =>
      have hm := (hl.trans (.data hctl hp (.refl _))).message (Or.inr ⟨rfl, fragments_empty cfg⟩)
      rw [List.append_assoc] at hm
      exact absurd ⟨_, _, hm⟩ hno
    | intermediate =>
      rw [hp] at hsp
      obtain ⟨⟨oc, rfl⟩, -⟩ := hsp
      have hm := (hl.trans (.more hctl hp (.refl _))).message (Or.inr ⟨rfl, fragments_empty cfg⟩)
      rw [List.append_assoc] at hm
      exact absurd ⟨_, _, hm⟩ hno
    | last oc =>
      rw [hp] at hsp
      exact absurd ⟨oc, [], hl.message (Or.inr ⟨hsp.1, .last hsp.2.1 hsp.2.2⟩)⟩ hno
    | single =>
      rw [hp] at hsp
      exact absurd ⟨_, [], hl.message (Or.inl ⟨hsp.1,
        .single (Frame.text_or_binary hctl hsp.2.1) hsp.2.2⟩)⟩ hno
  · intro hp
    refine ⟨hl.begins, ?_⟩
    rintro ⟨oc, gs, hm⟩
    obtain ⟨hs, g, first', he, hl', hctl', hp'⟩ := hm.leads
    rcases List.eq_nil_or_concat' gs with rfl | ⟨gs', g', rfl⟩
    · -- `f` would be the last frame
      obtain ⟨rfl, hg⟩ := List.append_inj' he rfl
      cases hg
      rw [hl'.unique hl, hp] at hp'
      rcases hp' with h | ⟨h, -⟩ <;> cases h
    · -- `f` would lead somewhere
      rw [← List.cons_append, ← List.append_assoc] at he
      obtain ⟨rfl, -⟩ := List.append_inj' he rfl
      obtain ⟨first₁, h₁, h₂⟩ := hl'.of_append
      rw [h₁.unique hl] at h₂
      cases h₂ with
      | ping h _ => rw [h] at hctl; cases hctl
      | data _ h _ => cases hp.symm.trans h
      | more _ h _ => cases hp.symm.trans h

/-! ## Splitting a sequence of frames -/

theorem OpCode.eq_ping {oc : OpCode} (hctl : oc.isControl = true) (hpong : oc ≠ .pong)
    (hclose : oc ≠ .close) : oc = .ping := by
  cases oc <;> first | rfl | exact absurd rfl hpong | exact absurd rfl hclose | cases hctl

theorem Violates.isData {fs : List (Frame cfg)} {f : Frame cfg} (hv : Violates fs f)
    (hpong : f.header.opcode ≠ .pong) (hclose : f.header.opcode ≠ .close) :
    f.header.opcode.isControl = false := by
  by_contra hctl
  have hping := OpCode.eq_ping (Bool.eq_true_of_not_eq_false hctl) hpong hclose
  obtain ⟨first, hl⟩ := hv.1.leads
  obtain ⟨oc, gs, -, hm⟩ := (hl.trans (.ping hping (.refl _))).begins
  rw [List.append_assoc] at hm
  exact hv.2 ⟨oc, gs, hm⟩

/-- After `pre`, the frames `fs` go on with a message, complete it, or violate the grammar. -/
theorem scan (fs : List (Frame cfg)) {pre : List (Frame cfg)} {first : Option OpCode}
    (hpre : Leads none pre first)
    (hfs : ∀ f ∈ fs, f.header.opcode ≠ .pong ∧ f.header.opcode ≠ .close) :
    Begins (pre ++ fs) ∨ (∃ gs f hs oc, fs = gs ++ f :: hs ∧ Message oc (pre ++ (gs ++ [f]))) ∨
      ∃ gs f hs, fs = gs ++ f :: hs ∧ Violates (pre ++ gs) f := by
  induction fs generalizing pre first with
  | nil => exact Or.inl (by rw [List.append_nil]; exact hpre.begins)
  | cons f fs ih =>
    have hmem : ∀ g ∈ fs, g.header.opcode ≠ .pong ∧ g.header.opcode ≠ .close :=
      fun g hg => hfs g (List.mem_cons_of_mem _ hg)
    -- the frame is not the last one of its message
    have hgo : ∀ first', Leads first [f] first' →
        Begins (pre ++ f :: fs) ∨
          (∃ gs g hs oc, f :: fs = gs ++ g :: hs ∧ Message oc (pre ++ (gs ++ [g]))) ∨
          ∃ gs g hs, f :: fs = gs ++ g :: hs ∧ Violates (pre ++ gs) g := by
      intro first' hf
      rcases ih (hpre.trans hf) hmem with h | ⟨gs, g, hs, oc, rfl, hm⟩ | ⟨gs, g, hs, rfl, hv⟩
      · exact Or.inl (by simpa using h)
      · exact Or.inr (Or.inl ⟨f :: gs, g, hs, oc, rfl, by simpa using hm⟩)
      · exact Or.inr (Or.inr ⟨f :: gs, g, hs, rfl, by simpa using hv⟩)
    cases hctl : f.header.opcode.isControl with
    | true =>
      obtain ⟨hpong, hclose⟩ := hfs f List.mem_cons_self
      exact hgo first (.ping (OpCode.eq_ping hctl hpong hclose) (.refl _))
    | false =>
      have hsp := place_spec first f.header
      cases hp : place first f.header with
      | unexpected =>
        refine Or.inr (Or.inr ⟨[], f, fs, rfl, ?_⟩)
        rw [List.append_nil]
        exact (violates_iff hpre hctl).mpr hp
      | initial => exact hgo _ (.data hctl hp (.refl _))
      | intermediate => exact hgo _ (.more hctl hp (.refl _))
      | last oc =>
        rw [hp] at hsp
        exact Or.inr (Or.inl ⟨[], f, fs, oc, rfl,
          hpre.message (Or.inr ⟨hsp.1, .last hsp.2.1 hsp.2.2⟩)⟩)
      | single =>
        rw [hp] at hsp
        exact Or.inr (Or.inl ⟨[], f, fs, _, rfl, hpre.message (Or.inl ⟨hsp.1,
          .single (Frame.text_or_binary hctl hsp.2.1) hsp.2.2⟩)⟩)

/-- **Every sequence of frames is a sequence of messages**, and then either the beginning of one or
a violation. -/
theorem exists_messages (fs : List (Frame cfg))
    (hfs : ∀ f ∈ fs, f.header.opcode ≠ .pong ∧ f.header.opcode ≠ .close) :
    ∃ (msgs : List (OpCode × List (Frame cfg))) (tail : List (Frame cfg)),
      fs = msgs.flatMap Prod.snd ++ tail ∧ (∀ m ∈ msgs, Message m.1 m.2) ∧
      (Begins tail ∨ ∃ gs f hs, tail = gs ++ f :: hs ∧ Violates gs f) := by
  induction hn : fs.length using Nat.strong_induction_on generalizing fs with
  | _ n ih =>
    rcases scan fs (.refl none) hfs with h | ⟨gs, f, hs, oc, rfl, hm⟩ | ⟨gs, f, hs, rfl, hv⟩
    · exact ⟨[], fs, rfl, fun m hm => (by cases hm), Or.inl h⟩
    · rw [List.length_append, List.length_cons] at hn
      obtain ⟨msgs, tail, rfl, hmsgs, htail⟩ := ih hs.length (by omega) hs
        (fun g hg => hfs g (List.mem_append_right _ (List.mem_cons_of_mem _ hg))) rfl
      refine ⟨(oc, gs ++ [f]) :: msgs, tail, by simp, fun m h => ?_, htail⟩
      rcases List.mem_cons.mp h with rfl | h
      · exact hm
      · exact hmsgs m h
    · exact ⟨[], _, rfl, fun m hm => (by cases hm), Or.inr ⟨gs, f, hs, rfl, hv⟩⟩

/-! ## The split is the only one -/

/-- What follows the messages: the beginning of one, or a violation. -/
def Rest (tail : List (Frame cfg)) : Prop :=
  Begins tail ∨ ∃ gs f hs, tail = gs ++ f :: hs ∧ Violates gs f

/-- After the last frame of a message, none is open and none goes on. -/
theorem Message.not_leads {oc : OpCode} {fs : List (Frame cfg)} (h : Message oc fs)
    (first : Option OpCode) : ¬Leads none fs first := by
  intro hfs
  obtain ⟨gs, f, first₁, rfl, hl, hctl, hp⟩ := h.leads
  obtain ⟨first₂, hgs, hf⟩ := hfs.of_append
  rw [hgs.unique hl] at hf
  cases hf with
  | ping h _ => rw [h] at hctl; cases hctl
  | data _ h _ => rw [h] at hp; rcases hp with hp | ⟨hp, -⟩ <;> cases hp
  | more _ h _ => rw [h] at hp; rcases hp with hp | ⟨hp, -⟩ <;> cases hp

theorem Message.not_begins {oc : OpCode} {fs gs : List (Frame cfg)} (h : Message oc fs) :
    ¬Begins (fs ++ gs) := by
  intro hb
  obtain ⟨first, hl⟩ := hb.leads
  obtain ⟨first₁, hfs, -⟩ := hl.of_append
  exact h.not_leads first₁ hfs

theorem Message.eq_nil_of_append {oc oc' : OpCode} {fs gs : List (Frame cfg)} (h : Message oc fs)
    (h' : Message oc' (fs ++ gs)) : gs = [] := by
  by_contra hne
  have hbegins : Begins fs := ⟨oc', gs, hne, h'⟩
  obtain ⟨first, hl⟩ := hbegins.leads
  exact h.not_leads first hl

theorem Message.kind_unique {oc oc' : OpCode} {fs : List (Frame cfg)} (h : Message oc fs)
    (h' : Message oc' fs) : oc = oc' := by
  obtain ⟨gs, f, first, rfl, hl, -, hp⟩ := h.leads
  obtain ⟨gs', f', first', he, hl', -, hp'⟩ := h'.leads
  obtain ⟨rfl, hf⟩ := List.append_inj' he rfl
  cases hf
  rw [hl'.unique hl] at hp'
  rcases hp with hp | ⟨hp, rfl⟩ <;> rcases hp' with hp' | ⟨hp', rfl⟩ <;> rw [hp] at hp' <;> cases hp'
  rfl

/-- What follows the messages does not begin with a message. -/
theorem Rest.not_message {oc : OpCode} {fs gs : List (Frame cfg)} (h : Rest (fs ++ gs)) :
    ¬Message oc fs := by
  intro hm
  rcases h with hb | ⟨pre, f, hs, he, hb, hno⟩
  · exact hm.not_begins hb
  · rcases List.append_eq_append_iff.mp he with ⟨a, rfl, -⟩ | ⟨c, rfl, hc⟩
    · exact hm.not_begins hb
    · cases c with
      | nil =>
        have hbegins : Begins (pre ++ [] ++ []) := by simpa using hb
        exact hm.not_begins hbegins
      | cons g c =>
        rw [List.cons_append, List.cons.injEq] at hc
        exact hno ⟨oc, c, hc.1 ▸ hm⟩

/-- **Frames are split into messages in one way only.** -/
theorem messages_unique {msgs msgs' : List (OpCode × List (Frame cfg))} {tail tail' : List (Frame cfg)}
    (h : msgs.flatMap Prod.snd ++ tail = msgs'.flatMap Prod.snd ++ tail')
    (hm : ∀ m ∈ msgs, Message m.1 m.2) (hm' : ∀ m ∈ msgs', Message m.1 m.2) (ht : Rest tail)
    (ht' : Rest tail') : msgs = msgs' ∧ tail = tail' := by
  induction msgs generalizing msgs' with
  | nil =>
    cases msgs' with
    | nil => exact ⟨rfl, h⟩
    | cons m' ms' =>
      rw [List.flatMap_nil, List.nil_append, List.flatMap_cons, List.append_assoc] at h
      exact absurd (hm' m' List.mem_cons_self) (h ▸ ht).not_message
  | cons m ms ih =>
    obtain ⟨oc, fs⟩ := m
    obtain ⟨hmsg : Message oc fs, hms⟩ := List.forall_mem_cons.mp hm
    rw [List.flatMap_cons, List.append_assoc] at h
    cases msgs' with
    | nil =>
      rw [List.flatMap_nil, List.nil_append] at h
      exact absurd hmsg (h ▸ ht').not_message
    | cons m' ms' =>
      obtain ⟨oc', fs'⟩ := m'
      obtain ⟨hmsg' : Message oc' fs', hms'⟩ := List.forall_mem_cons.mp hm'
      rw [List.flatMap_cons, List.append_assoc] at h
      -- one of the two messages is a beginning of the other
      have hfs : fs = fs' := by
        rcases List.append_eq_append_iff.mp h with
          ⟨a, heq : fs' = fs ++ a, -⟩ | ⟨a, heq : fs = fs' ++ a, -⟩
        · obtain rfl : a = [] := hmsg.eq_nil_of_append (heq ▸ hmsg')
          rw [heq, List.append_nil]
        · obtain rfl : a = [] := hmsg'.eq_nil_of_append (heq ▸ hmsg)
          rw [heq, List.append_nil]
      subst hfs
      obtain ⟨rfl, rfl⟩ := ih (List.append_cancel_left h) hms hms'
      exact ⟨by rw [hmsg.kind_unique hmsg'], rfl⟩

/-! ## Receiving -/

namespace Feed

variable {E : Type} [Extension E]

/-- **A call receives one message.** -/
theorem runs_message (hx : cfg.hasExtensions = false) {oc : OpCode} {fs : List (Frame cfg)}
    (hm : Message oc fs) {st : Feed E} {s : List UInt8} (hs : st.stream = Frame.stream fs ++ s)
    (ho : st.isClosed = false) (hmax : Frame.dataLen fs ≤ cfg.maxMessageSize.toNat) :
    Runs cfg st (.start []) (.ok (.data (.ofOpCode oc (Frame.dataLen fs)))) (st.past fs s)
      (Frame.content fs) := by
  obtain ⟨gs, f, first, rfl, hl, hctl, hp⟩ := hm.leads
  have hlen : Frame.dataLen gs ≤ Frame.dataLen (gs ++ [f]) := by
    rw [Frame.dataLen_append]
    omega
  have hstart : (Locals.start []).length = 0 := rfl
  have hsub : wrappingSub (Frame.content (gs ++ [f])).length 0 = Frame.dataLen (gs ++ [f]) := by
    rw [Frame.length_content, wrappingSub, if_pos (Nat.zero_le _), Nat.sub_zero]
  rw [Frame.stream_append, List.append_assoc, Frame.stream_cons, List.append_assoc] at hs
  refine ⟨_, _, steps_leads hx hl hs ho rfl (by omega), ?_⟩
  rw [step_past_data gs f ho hctl (by omega), onData]
  rcases hp with hp | ⟨hp, rfl⟩
  all_goals
    simp only [Locals.past, hp, decode_plain hx, finish, Locals.start, List.length_nil,
      List.nil_append, hsub]
    rfl

/-- **A call stops at a violation.** -/
theorem runs_violates (hx : cfg.hasExtensions = false) {fs : List (Frame cfg)} {f : Frame cfg}
    (hv : Violates fs f) (hctl : f.header.opcode.isControl = false) {st : Feed E}
    {s : List UInt8} (hs : st.stream = Frame.stream (fs ++ [f]) ++ s) (ho : st.isClosed = false)
    (hmax : Frame.dataLen (fs ++ [f]) ≤ cfg.maxMessageSize.toNat) :
    Runs cfg st (.start []) (.error (.unexpectedOpCode f.header.opcode)) (st.past (fs ++ [f]) s)
      (Frame.content (fs ++ [f])) := by
  obtain ⟨first, hl⟩ := hv.1.leads
  have hp := (violates_iff hl hctl).mp hv
  have hlen : Frame.dataLen fs ≤ Frame.dataLen (fs ++ [f]) := by
    rw [Frame.dataLen_append]
    omega
  have hstart : (Locals.start []).length = 0 := rfl
  rw [Frame.stream_append, List.append_assoc, Frame.stream_cons, List.append_assoc] at hs
  refine ⟨_, _, steps_leads hx hl hs ho rfl (by omega), ?_⟩
  rw [step_past_data fs f ho hctl (by omega), onData]
  simp only [Locals.past, hp, Locals.start, List.nil_append]
  rfl

end Feed

/-- The outcome of receiving the message `fs` of the kind `oc`. -/
def delivered (oc : OpCode) (fs : List (Frame cfg)) (pos : ℕ) : Outcome where
  result := .ok (.data (.ofOpCode oc (Frame.dataLen fs)))
  appended := Frame.content fs
  replies := Frame.pongs fs
  pos := pos

/-- The outcomes of receiving messages one after the other, from the position `pos` on. -/
def deliveries : ℕ → List (OpCode × List (Frame cfg)) → List Outcome
  | _, [] => []
  | pos, (oc, fs) :: msgs =>
    let pos := pos + (Frame.stream fs).length
    delivered oc fs pos :: deliveries pos msgs

/-- The outcome of a violation. -/
def rejected (fs : List (Frame cfg)) (f : Frame cfg) (pos : ℕ) : Outcome where
  result := .error (.unexpectedOpCode f.header.opcode)
  appended := Frame.content (fs ++ [f])
  replies := Frame.pongs (fs ++ [f])
  pos := pos

theorem length_deliveries (pos : ℕ) (msgs : List (OpCode × List (Frame cfg))) :
    (deliveries pos msgs).length = msgs.length := by
  induction msgs generalizing pos with
  | nil => rfl
  | cons m msgs ih => rw [deliveries, List.length_cons, List.length_cons, ih]

theorem drop_prefix {s p a t : List UInt8} (hs : s = p ++ (a ++ t)) :
    t = s.drop (p.length + a.length) ∧ p.length + a.length ≤ s.length := by
  subst hs
  rw [← List.append_assoc, ← List.length_append, List.drop_left]
  exact ⟨rfl, by simp only [List.length_append]; omega⟩

theorem Feed.receives_deliveries {E : Type} [Extension E] (hx : cfg.hasExtensions = false)
    {msgs : List (OpCode × List (Frame cfg))}
    (hm : ∀ m ∈ msgs, Message m.1 m.2 ∧ Frame.dataLen m.2 ≤ cfg.maxMessageSize.toNat)
    {s p rest : List UInt8} {st : Feed E} (outs : List Outcome) (hs : s = p ++ st.stream)
    (hst : st.stream = Frame.stream (msgs.flatMap Prod.snd) ++ rest) (ho : st.isClosed = false)
    (houts : ∀ (st' : Feed E) p', s = p' ++ rest → p'.length =
        p.length + (Frame.stream (msgs.flatMap Prod.snd)).length → st'.stream = rest →
      st'.isClosed = false → Receives cfg s st' outs) :
    Receives cfg s st (deliveries p.length msgs ++ outs) := by
  induction msgs generalizing st p with
  | nil => exact houts st p (by rw [hs, hst]; rfl) rfl hst ho
  | cons m msgs ih =>
    obtain ⟨oc, fs⟩ := m
    obtain ⟨hmsg, hmax⟩ := hm _ List.mem_cons_self
    rw [List.flatMap_cons, Frame.stream_append] at hst houts
    rw [List.append_assoc] at hst
    have hend := drop_prefix (by rw [hs, hst] : s = p ++ (Frame.stream fs ++ _))
    refine ⟨_, runs_message hx hmsg hst ho hmax, rfl, fun _ => hend, ?_⟩
    dsimp only [delivered]
    rw [← List.length_append]
    refine ih (fun m h => hm m (List.mem_cons_of_mem _ h)) ?_ rfl ho fun st' p' h₁ h₂ h₃ h₄ => ?_
    · rw [List.append_assoc, hs, hst]
      rfl
    · refine houts st' p' h₁ ?_ h₃ h₄
      rw [h₂, List.length_append, List.length_append, Nat.add_assoc]

/-- **The grammar of fragmented messages.** A ready receiver without extensions gets frames without
`Pong` and `Close`. They are messages, and then the beginning of one or a violation. Each call takes
one message: it returns data of the message's kind, as long as the payloads together, appends the
unmasked payloads and answers the pings. The call that comes to a violation returns its opcode. -/
theorem receive_grammar {E : Type} [Extension E] {r : Receiver} {w : World (List E)}
    (h : r.Ready w) (fs : List (Frame r.config))
    (hfs : ∀ f ∈ fs, f.header.opcode ≠ .pong ∧ f.header.opcode ≠ .close) (rest : List UInt8)
    (hs : r.stream = Frame.stream fs ++ rest) :
    ∃ (msgs : List (OpCode × List (Frame r.config))) (tail : List (Frame r.config)),
      fs = msgs.flatMap Prod.snd ++ tail ∧ (∀ m ∈ msgs, Message m.1 m.2) ∧
      (Begins tail ∨ ∃ gs f hs, tail = gs ++ f :: hs ∧ Violates gs f) ∧
      ((∀ m ∈ msgs, Frame.dataLen m.2 ≤ r.maxMessageSize.toNat) →
        (∀ ms, ms.length = msgs.length → r.Receives r.stream w ms (deliveries 0 msgs)) ∧
        ∀ gs f hs, tail = gs ++ f :: hs → Violates gs f →
          Frame.dataLen (gs ++ [f]) ≤ r.maxMessageSize.toNat →
          ∀ ms, ms.length = msgs.length + 1 → r.Receives r.stream w ms (deliveries 0 msgs ++
            [rejected gs f (Frame.stream (msgs.flatMap Prod.snd ++ gs ++ [f])).length])) := by
  obtain ⟨msgs, tail, rfl, hmsgs, htail⟩ := exists_messages fs hfs
  refine ⟨msgs, tail, rfl, hmsgs, htail, fun hmax => ⟨fun ms hms => ?_, ?_⟩⟩
  · rw [Frame.stream_append, List.append_assoc] at hs
    have hr : Feed.Receives r.config r.stream (Feed.ofReceiver r ([] : List E))
        (deliveries 0 msgs ++ []) :=
      Feed.receives_deliveries h.hasExtensions (fun m hm => ⟨hmsgs m hm, hmax m hm⟩) []
        (p := []) rfl hs h.isClosed fun _ _ _ _ _ _ => trivial
    rw [List.append_nil] at hr
    exact Feed.sim_receives h hr (by rw [length_deliveries]; exact hms)
  · rintro gs f fs' rfl hv hlen ms hms
    have hf := hfs f (List.mem_append_right _ (List.mem_append_right _ List.mem_cons_self))
    have hctl := hv.isData hf.1 hf.2
    have hstream : r.stream = Frame.stream (msgs.flatMap Prod.snd) ++
        (Frame.stream (gs ++ [f]) ++ (Frame.stream fs' ++ rest)) := by
      rw [hs]
      simp only [Frame.stream_append, Frame.stream_cons, List.append_assoc]
      rfl
    refine Feed.sim_receives h ?_ (by rw [List.length_append, length_deliveries]; exact hms)
    refine Feed.receives_deliveries h.hasExtensions (fun m hm => ⟨hmsgs m hm, hmax m hm⟩) _
      (p := []) rfl hstream h.isClosed fun st' p' hp' hlen' hst' ho' => ?_
    have hend := drop_prefix hp'
    rw [hlen', List.length_nil, Nat.zero_add, ← List.length_append, ← Frame.stream_append,
      ← List.append_assoc] at hend
    exact ⟨_, Feed.runs_violates h.hasExtensions hv hctl hst' ho' hlen, rfl, fun _ => hend, rfl⟩

/-- A text in two fragments, with a ping in between. -/
theorem receive_grammar_pings :
    let b : Builder Empty :=
      (Builder.new [.data [0x01, 1, 65, 0x89], .data [1, 112, 0x80, 1, 66]] .server).setBuffer []
    ∃ (fs : List (Frame b.finish.2.1.config)) (msgs : List (OpCode × List (Frame _)))
        (tail : List (Frame _)),
      fs.map Frame.bytes = [[0x01, 1, 65], [0x89, 1, 112], [0x80, 1, 66]] ∧
      fs = msgs.flatMap Prod.snd ++ tail ∧ msgs = [(.text, fs)] ∧ tail = [] ∧
      ∀ m, b.finish.2.1.Receives b.finish.2.1.stream (b.world []) [m]
        [⟨.ok (.data (.text 2)), [65, 66], [⟨Header.new .pong, [112]⟩], 9⟩] := by
  intro b
  let text : Frame b.finish.2.1.config :=
    ⟨[0x01, 1], { Header.new .text with fin := false, payloadLen := 1 }, [65], rfl, rfl⟩
  let ping : Frame b.finish.2.1.config :=
    ⟨[0x89, 1], { Header.new .ping with payloadLen := 1 }, [112], rfl, rfl⟩
  let last : Frame b.finish.2.1.config :=
    ⟨[0x80, 1], { Header.new .continue with payloadLen := 1 }, [66], rfl, rfl⟩
  have hb : b.finish.2.1.Ready (b.world []) := ready_finish rfl clean_nil.data.data []
  have hm : Message .text [text, ping, last] :=
    .fragmented (f := text) (Or.inl rfl) rfl (.more (Or.inl rfl) (.last rfl rfl))
  obtain ⟨msgs, tail, h₁, h₂, h₃, h₄⟩ := receive_grammar hb [text, ping, last]
    (by simp [text, ping, last, Header.new]) [] rfl
  -- there is no other way to split the frames
  have hrest : Rest ([] : List (Frame b.finish.2.1.config)) :=
    Or.inl ⟨.text, _, List.cons_ne_nil _ _, hm⟩
  have hone : [text, ping, last] = [(OpCode.text, [text, ping, last])].flatMap Prod.snd ++ [] := rfl
  obtain ⟨rfl, rfl⟩ := messages_unique (h₁.symm.trans hone) h₂ (by simpa using hm) h₃ hrest
  exact ⟨[text, ping, last], _, _, rfl, rfl, rfl, rfl,
    fun m => (h₄ (by simp [Frame.dataLen, text, ping, last]; decide)).1 [m] rfl⟩

end Soketto
