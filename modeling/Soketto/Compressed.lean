import Soketto.Extension.Deflate
import Soketto.Feed.Rounds
import Soketto.Grammar

/-!
# Compressed messages

What a receiver with the deflate extension makes of one message, compressed or not, fragmented or
not, with pings in between.

* `Deflate.wants`: the decision to inflate; `arrived`: the result and the vector after it.
* **`runs_deflate`**: a call receives the message as `arrived` says, with the decision that
  `inflates` makes from the frames, the vector and the state of the extension.
* **`receive_appends_iff`**: when the vector is the old one with the payload appended.
* **`receive_fragments_iff`**: when a message arrives as if it were not fragmented.
-/

set_option autoImplicit false

namespace Soketto

open Incremental Chunked

/-! ## The decision to inflate -/

section Deflate

variable {F : Flate}

/-- Is the accumulated data to be inflated? -/
def Deflate.wants (self : Deflate F) (header : Header) (data : List UInt8) : Bool :=
  !data.isEmpty && header.fin &&
    (decide (header.opcode = .binary ∨ header.opcode = .text) && header.rsv1 ||
      decide (header.opcode = .continue) && self.awaitLastFragment)

/-- The result of a call and the vector, when the message is complete and is inflated or not. -/
def arrived (F : Flate) (inflates : Bool) (oc : OpCode) (messageLen : ℕ) (message : List UInt8) :
    Except Error Incoming × List UInt8 :=
  if inflates then
    match F.inflate (message ++ emptyBlock) with
    | (_, some e) => (.error (.extension e), message ++ emptyBlock)
    | (out, none) => (.ok (.data (.ofOpCode oc (wrappingSub out.length messageLen))), out)
  else (.ok (.data (.ofOpCode oc (wrappingSub message.length messageLen))), message)

theorem arrived_ok {b : Bool} {oc : OpCode} {n : ℕ} {m m' : List UInt8} {x : Data}
    (h : (.ok (.data x), m') = arrived F b oc n m) :
    (if b then (F.inflate (m ++ emptyBlock)).1 else m) = m' ∧
      x = .ofOpCode oc (wrappingSub m'.length n) := by
  unfold arrived at h
  cases b with
  | false =>
    cases h
    exact ⟨rfl, rfl⟩
  | true =>
    simp only [if_true] at h ⊢
    rcases hi : F.inflate (m ++ emptyBlock) with ⟨out, _ | e⟩ <;> rw [hi] at h <;> cases h
    exact ⟨rfl, rfl⟩

namespace Deflate

variable {self : Deflate F} {header : Header} {data : List UInt8}

/-- Data that is not to be inflated stays as it is. -/
theorem decode_of_not_wants (h : self.wants header data = false) :
    (self.decode header data).result = .ok () ∧ (self.decode header data).data = data := by
  unfold wants at h
  unfold decode
  split_ifs <;> simp_all

theorem decode_of_wants (h : self.wants header data = true) :
    ∃ d : Deflate F, self.decode header data = d.inflateData header data := by
  unfold wants at h
  unfold decode
  split_ifs
  · simp_all
  · simp_all
  · exact ⟨self, rfl⟩
  · exact ⟨{ self with awaitLastFragment := false }, rfl⟩
  · simp_all

theorem opcode_decode (self : Deflate F) (header : Header) (data : List UInt8) :
    (self.decode header data).header.opcode = header.opcode := by
  have hinfl : ∀ d : Deflate F, (d.inflateData header data).header.opcode = header.opcode := by
    intro d
    unfold inflateData
    dsimp only
    split <;> rfl
  unfold decode
  split_ifs
  · rfl
  · rfl
  · exact hinfl self
  · exact hinfl _
  · rfl

theorem awaitLastFragment_initial (self : Deflate F)
    (hoc : header.opcode = .text ∨ header.opcode = .binary) (hfin : header.fin = false)
    (data : List UInt8) :
    (self.decode header data).ext.awaitLastFragment =
      (header.rsv1 && !data.isEmpty || self.awaitLastFragment) := by
  have hne : header.opcode ≠ .continue := by rcases hoc with hoc | hoc <;> rw [hoc] <;> decide
  have hoc' : header.opcode = .binary ∨ header.opcode = .text := hoc.symm
  unfold decode
  cases header.rsv1 <;> cases hd : data.isEmpty <;> simp [hoc', hfin, hne]

theorem awaitLastFragment_inflateData (self : Deflate F) (header : Header) (data : List UInt8) :
    (self.inflateData header data).ext.awaitLastFragment = self.awaitLastFragment := by
  unfold inflateData
  dsimp only
  split <;> rfl

theorem awaitLastFragment_last (self : Deflate F) (hoc : header.opcode = .continue)
    (hfin : header.fin = true) (hne : data ≠ []) :
    (self.decode header data).ext.awaitLastFragment = false := by
  unfold decode
  rw [if_neg (by simpa using hne), if_neg (by simp [hoc])]
  split_ifs with h
  · exact awaitLastFragment_inflateData _ _ _
  · simpa [hoc, hfin] using h

theorem awaitLastFragment_single (self : Deflate F) (hoc : header.opcode ≠ .continue)
    (hfin : header.fin = true) (data : List UInt8) :
    (self.decode header data).ext.awaitLastFragment = self.awaitLastFragment := by
  unfold decode
  split_ifs with h₁ h₂ h₃ h₄
  · rfl
  · rw [hfin] at h₃
    cases h₃
  · exact awaitLastFragment_inflateData _ _ _
  · exact absurd h₄.1 hoc
  · rfl

end Deflate

end Deflate

/-! ## One message -/

namespace Frame

variable {cfg : Config}

/-- The first data frame. -/
def first (fs : List (Frame cfg)) : Option (Frame cfg) := fs.find? isData

/-- Is RSV1 set in the first data frame? -/
def compressed (fs : List (Frame cfg)) : Bool := (first fs).any (·.header.rsv1)

/-- Does the first data frame leave the message open? -/
def fragmented (fs : List (Frame cfg)) : Bool := (first fs).any (!·.header.fin)

/-- The payload of the first data frame. -/
def firstPayload (fs : List (Frame cfg)) : List UInt8 := ((first fs).map payload).getD []

theorem first_control {f : Frame cfg} (h : f.header.opcode.isControl = true) (fs : List (Frame cfg)) :
    first (f :: fs) = first fs := by
  simp [first, isData, h]

theorem first_data {f : Frame cfg} (h : f.header.opcode.isControl = false)
    (fs : List (Frame cfg)) : first (f :: fs) = some f := by
  simp [first, isData, h]

end Frame

/-- Is the message inflated, when the vector holds `m₀` before it? -/
def inflates {cfg : Config} (await : Bool) (m₀ : List UInt8) (fs : List (Frame cfg)) : Bool :=
  !(m₀ ++ Frame.content fs).isEmpty &&
    (Frame.compressed fs && !(m₀ ++ Frame.firstPayload fs).isEmpty || Frame.fragmented fs && await)

section

variable {cfg : Config} {f : Frame cfg} {await : Bool} {m₀ : List UInt8}

theorem content_ping (h : f.header.opcode = .ping) (fs : List (Frame cfg)) :
    Frame.content (f :: fs) = Frame.content fs := by
  have hctl : f.header.opcode.isControl = true := by rw [h]; rfl
  rw [← List.singleton_append, Frame.content_append, Frame.content_control hctl]
  rfl

theorem inflates_ping (h : f.header.opcode = .ping) (fs : List (Frame cfg)) :
    inflates await m₀ (f :: fs) = inflates await m₀ fs := by
  have hctl : f.header.opcode.isControl = true := by rw [h]; rfl
  simp only [inflates, Frame.compressed, Frame.fragmented, Frame.firstPayload,
    Frame.first_control hctl, content_ping h]

theorem inflates_single {F : Flate} (hoc : f.header.opcode = .text ∨ f.header.opcode = .binary)
    (hfin : f.header.fin = true) (d : Deflate F) :
    inflates await m₀ [f] = d.wants f.header (m₀ ++ f.payload) := by
  obtain ⟨hctl, hne⟩ := isControl_of_text_or_binary hoc
  have hoc' : f.header.opcode = .binary ∨ f.header.opcode = .text := hoc.symm
  simp only [inflates, Frame.compressed, Frame.fragmented, Frame.firstPayload,
    Frame.first_data hctl, Frame.content_data hctl, Deflate.wants, hfin, hoc', hne,
    Option.any_some, Option.map_some, Option.getD_some]
  cases (m₀ ++ f.payload).isEmpty <;> cases f.header.rsv1 <;> rfl

theorem inflates_fragmented (hoc : f.header.opcode = .text ∨ f.header.opcode = .binary)
    (hfin : f.header.fin = false) (fs : List (Frame cfg)) :
    inflates await m₀ (f :: fs) = (!(m₀ ++ f.payload ++ Frame.content fs).isEmpty &&
      (f.header.rsv1 && !(m₀ ++ f.payload).isEmpty || await)) := by
  obtain ⟨hctl, -⟩ := isControl_of_text_or_binary hoc
  have hcons : Frame.content (f :: fs) = f.payload ++ Frame.content fs := by
    rw [← List.singleton_append, Frame.content_append, Frame.content_data hctl]
  simp only [inflates, Frame.compressed, Frame.fragmented, Frame.firstPayload,
    Frame.first_data hctl, hcons, hfin, Option.any_some, Option.map_some, Option.getD_some,
    Bool.not_false, Bool.true_and, List.append_assoc]

end

/-- The result of a call that found the message too large. -/
def TooLarge (result : Except Error Incoming) : Prop :=
  ∃ current maximum, result = .error (.messageTooLarge current maximum)

namespace Feed

variable {F : Flate} {cfg : Config} {st : Feed (Deflate F)} {d : Deflate F}

theorem decode_deflate (hx : cfg.hasExtensions = true) (hd : st.exts = [d]) (header : Header)
    (message : List UInt8) :
    st.decode cfg header message =
      ⟨(d.decode header message).result, [(d.decode header message).ext],
        (d.decode header message).header, (d.decode header message).data⟩ := by
  have hdec : Extension.decode d header message = d.decode header message := rfl
  unfold decode
  rw [hx, hd]
  simp only [Bool.not_true, Bool.false_eq_true, if_false, Extension.decodeAll, hdec]
  rcases d.decode header message with ⟨e | u, ext, header', data⟩ <;> rfl

theorem finish_deflate (hx : cfg.hasExtensions = true) (hd : st.exts = [d]) (header : Header)
    (oc : OpCode) (l : Locals) :
    st.finish (st.decode cfg header l.message) oc l =
      .ret (arrived F (d.wants header l.message) oc l.messageLen l.message).1
        { st with exts := [(d.decode header l.message).ext] }
        (arrived F (d.wants header l.message) oc l.messageLen l.message).2 := by
  rw [decode_deflate hx hd]
  cases hw : d.wants header l.message with
  | false =>
    obtain ⟨hres, hdata⟩ := Deflate.decode_of_not_wants hw
    rw [hres, hdata]
    rfl
  | true =>
    obtain ⟨d', hd'⟩ := Deflate.decode_of_wants hw
    rw [hd', Deflate.inflateData, arrived, if_pos rfl]
    rcases F.inflate (l.message ++ emptyBlock) with ⟨out, _ | e⟩ <;> rfl

theorem onData_single (hx : cfg.hasExtensions = true) (st : Feed (Deflate F))
    (hd : st.exts = [d]) {h : Header} {l : Locals} (hp : place l.firstFragmentOpcode h = .single) :
    st.onData cfg h l =
      .ret (arrived F (d.wants h l.message) h.opcode l.messageLen l.message).1
        { st with exts := [(d.decode h l.message).ext] }
        (arrived F (d.wants h l.message) h.opcode l.messageLen l.message).2 := by
  have hoc : (st.decode cfg h l.message).header.opcode = h.opcode := by
    rw [decode_deflate hx hd]
    exact d.opcode_decode h l.message
  rw [onData, hp]
  dsimp only
  rw [hoc, finish_deflate hx hd]

theorem onData_last (hx : cfg.hasExtensions = true) (st : Feed (Deflate F))
    (hd : st.exts = [d]) {h : Header} {l : Locals} {oc : OpCode}
    (hp : place l.firstFragmentOpcode h = .last oc) :
    st.onData cfg h l =
      .ret (arrived F (d.wants h l.message) oc l.messageLen l.message).1
        { st with exts := [(d.decode { h with payloadLen := l.message.length } l.message).ext] }
        (arrived F (d.wants h l.message) oc l.messageLen l.message).2 := by
  rw [onData, hp]
  exact finish_deflate hx hd { h with payloadLen := l.message.length } oc l

theorem onData_initial (hx : cfg.hasExtensions = true) (st : Feed (Deflate F))
    (hd : st.exts = [d]) {h : Header} {l : Locals}
    (hp : place l.firstFragmentOpcode h = .initial) (hfin : h.fin = false) :
    st.onData cfg h l = .again { st with exts := [(d.decode h l.message).ext] }
      { l with firstFragmentOpcode := some h.opcode } := by
  have hw : d.wants h l.message = false := by
    rw [Deflate.wants, hfin, Bool.and_false, Bool.false_and]
  obtain ⟨hres, hdata⟩ := Deflate.decode_of_not_wants hw
  rw [onData, hp]
  dsimp only
  rw [decode_deflate hx hd, hres, hdata]

theorem Runs.cases_head {E : Type} [Extension E] {st st' : Feed E} {l : Locals}
    {result : Except Error Incoming} {m : List UInt8} (h : Runs cfg st l result st' m) :
    st.step cfg l = .ret result st' m ∨
      ∃ st₁ l₁, st.step cfg l = .again st₁ l₁ ∧ Runs cfg st₁ l₁ result st' m := by
  obtain ⟨st₂, l₂, hs, hret⟩ := h
  cases hs with
  | refl => exact Or.inl hret
  | head h hs => exact Or.inr ⟨_, _, h, _, _, hs, hret⟩

theorem step_data_cases {E : Type} [Extension E] {st : Feed E} (f : Frame cfg) {s : List UInt8}
    (hs : st.stream = f.bytes ++ s) (ho : st.isClosed = false)
    (hctl : f.header.opcode.isControl = false) (l : Locals) :
    (cfg.maxMessageSize.toNat < l.length + f.header.payloadLen ∧ ∃ current maximum st' m,
        st.step cfg l = .ret (.error (.messageTooLarge current maximum)) st' m) ∨
      st.step cfg l =
        { st with stream := s }.onData cfg f.header (l.append f.header f.payload) := by
  by_cases hmax : cfg.maxMessageSize.toNat < saturatingAdd l.length f.header.payloadLen
  · exact Or.inl ⟨hmax.trans_le (Nat.min_le_left _ _), _, _, _, _, step_tooLarge f hs ho hctl l hmax⟩
  · exact Or.inr (step_append f hs ho hctl l (by omega))

section

variable {E : Type} [Extension E] {st st' st₁ : Feed E} {l l₁ : Locals}
  {result result₁ : Except Error Incoming} {m m₁ : List UInt8}

theorem Runs.of_step_again (h : Runs cfg st l result st' m) (hs : st.step cfg l = .again st₁ l₁) :
    Runs cfg st₁ l₁ result st' m := by
  rcases h.cases_head with hret | ⟨st₂, l₂, hs', hr⟩
  · cases hs.symm.trans hret
  · cases hs.symm.trans hs'
    exact hr

theorem Runs.of_step_ret (h : Runs cfg st l result st' m)
    (hs : st.step cfg l = .ret result₁ st₁ m₁) : result = result₁ ∧ m = m₁ :=
  have hu := h.unique (.of_ret hs)
  ⟨hu.1, hu.2.2⟩

end

/-- **The fragments after the first**: they arrive together, inflated if that was waited for. -/
theorem runs_fragments (hx : cfg.hasExtensions = true) {fs : List (Frame cfg)} (hf : Fragments fs)
    {st st' : Feed (Deflate F)} {l : Locals} {s m : List UInt8} {oc : OpCode}
    {result : Except Error Incoming} (h : Runs cfg st l result st' m) (hd : st.exts = [d])
    (hs : st.stream = Frame.stream fs ++ s) (ho : st.isClosed = false)
    (hfirst : l.firstFragmentOpcode = some oc) :
    TooLarge result ∧ cfg.maxMessageSize.toNat < l.length + Frame.dataLen fs ∨
      (result, m) = arrived F (!(l.message ++ Frame.content fs).isEmpty && d.awaitLastFragment) oc
        l.messageLen (l.message ++ Frame.content fs) := by
  induction hf generalizing st l with
  | @last f hoc hfin =>
    have hctl : f.header.opcode.isControl = false := by rw [hoc]; rfl
    rw [Frame.content_data hctl, Frame.dataLen_data hctl]
    rw [Frame.stream_cons, List.append_assoc] at hs
    rcases step_data_cases f hs ho hctl l with ⟨hlt, current, maximum, st₁, m₁, hstep⟩ | hstep
    · exact Or.inl ⟨⟨current, maximum, (h.of_step_ret hstep).1⟩, hlt⟩
    · have hp : place (l.append f.header f.payload).firstFragmentOpcode f.header = .last oc := by
        simp [Locals.append, hfirst, place, hoc, hfin]
      have hw : d.wants f.header (l.message ++ f.payload) =
          (!(l.message ++ f.payload).isEmpty && d.awaitLastFragment) := by
        simp [Deflate.wants, hoc, hfin]
      have hret := onData_last hx { st with stream := Frame.stream ([] : List (Frame cfg)) ++ s } hd hp
      obtain ⟨h₁, h₂⟩ := h.of_step_ret (hstep.trans hret)
      rw [← hw]
      exact Or.inr (Prod.ext h₁ h₂)
  | @more f fs hoc hfs ih =>
    have hcons : Frame.content (f :: fs) = Frame.content [f] ++ Frame.content fs :=
      Frame.content_append [f] fs
    have hlen : Frame.dataLen (f :: fs) = Frame.dataLen [f] + Frame.dataLen fs :=
      Frame.dataLen_append [f] fs
    rw [Frame.stream_cons, List.append_assoc] at hs
    rw [hcons, hlen, ← List.append_assoc, ← Nat.add_assoc]
    rcases hoc with hoc | ⟨hoc, hfin⟩
    · exact ih (h.of_step_again (step_ping f hs ho hoc l)) hd rfl ho hfirst
    · have hctl : f.header.opcode.isControl = false := by rw [hoc]; rfl
      have hsat : saturatingAdd l.length f.header.payloadLen ≤ l.length + f.header.payloadLen :=
        Nat.min_le_left _ _
      rw [Frame.content_data hctl, Frame.dataLen_data hctl]
      rcases step_data_cases f hs ho hctl l with ⟨hlt, current, maximum, st₁, m₁, hstep⟩ | hstep
      · exact Or.inl ⟨⟨current, maximum, (h.of_step_ret hstep).1⟩, by omega⟩
      · have hp : place (some oc) f.header = .intermediate := by simp [place, hoc, hfin]
        have hagain : st.step cfg l = .again { st with stream := Frame.stream fs ++ s }
            { l.append f.header f.payload with firstFragmentOpcode := some oc } := by
          rw [hstep, onData, Locals.append, hfirst, hp]
        rcases ih (h.of_step_again hagain) hd rfl ho rfl with ⟨htl, hlt⟩ | harr
        · exact Or.inl ⟨htl, hlt.trans_le (Nat.add_le_add_right hsat _)⟩
        · exact Or.inr harr

/-- **A message arrives**, inflated or not, unless it is too large. -/
theorem runs_deflate (hx : cfg.hasExtensions = true) {oc : OpCode} {fs : List (Frame cfg)}
    (hm : Message oc fs) {st st' : Feed (Deflate F)} {l : Locals} {s m : List UInt8}
    {result : Except Error Incoming} (h : Runs cfg st l result st' m) (hd : st.exts = [d])
    (hs : st.stream = Frame.stream fs ++ s) (ho : st.isClosed = false)
    (hfirst : l.firstFragmentOpcode = none) :
    TooLarge result ∧ cfg.maxMessageSize.toNat < l.length + Frame.dataLen fs ∨
      (result, m) = arrived F (inflates d.awaitLastFragment l.message fs) oc l.messageLen
        (l.message ++ Frame.content fs) := by
  induction hm generalizing st l with
  | @ping oc f fs hoc hfs ih =>
    have hctl : f.header.opcode.isControl = true := by rw [hoc]; rfl
    have hlen : Frame.dataLen (f :: fs) = Frame.dataLen fs := by
      rw [← List.singleton_append, Frame.dataLen_append, Frame.dataLen_control hctl, Nat.zero_add]
    have hpast : l.past [f] l.firstFragmentOpcode = l := by
      simp [Locals.past, Frame.dataLen_control hctl, Frame.content_control hctl]
    rw [Frame.stream_cons, List.append_assoc] at hs
    have hr := h.of_step_again (step_ping f hs ho hoc l)
    rw [hpast] at hr
    rw [content_ping hoc, hlen, inflates_ping hoc]
    exact ih hr hd rfl ho hfirst
  | @single f hoc hfin =>
    obtain ⟨hctl, hne⟩ := isControl_of_text_or_binary hoc
    rw [Frame.content_data hctl, Frame.dataLen_data hctl, inflates_single hoc hfin d]
    rw [Frame.stream_cons, List.append_assoc] at hs
    rcases step_data_cases f hs ho hctl l with ⟨hlt, current, maximum, st₁, m₁, hstep⟩ | hstep
    · exact Or.inl ⟨⟨current, maximum, (h.of_step_ret hstep).1⟩, hlt⟩
    · have hp : place (l.append f.header f.payload).firstFragmentOpcode f.header = .single := by
        simp [Locals.append, hfirst, place, hne, hfin]
      have hret := onData_single hx { st with stream := Frame.stream ([] : List (Frame cfg)) ++ s } hd hp
      obtain ⟨h₁, h₂⟩ := h.of_step_ret (hstep.trans hret)
      exact Or.inr (Prod.ext h₁ h₂)
  | @fragmented f fs hoc hfin hfs =>
    obtain ⟨hctl, hne⟩ := isControl_of_text_or_binary hoc
    have hcons : Frame.content (f :: fs) = f.payload ++ Frame.content fs := by
      rw [← List.singleton_append, Frame.content_append, Frame.content_data hctl]
    have hlen : Frame.dataLen (f :: fs) = f.header.payloadLen + Frame.dataLen fs := by
      rw [← List.singleton_append, Frame.dataLen_append, Frame.dataLen_data hctl]
    have hsat : saturatingAdd l.length f.header.payloadLen ≤ l.length + f.header.payloadLen :=
      Nat.min_le_left _ _
    rw [Frame.stream_cons, List.append_assoc] at hs
    rw [inflates_fragmented hoc hfin, hcons, hlen, ← List.append_assoc, ← Nat.add_assoc]
    rcases step_data_cases f hs ho hctl l with ⟨hlt, current, maximum, st₁, m₁, hstep⟩ | hstep
    · exact Or.inl ⟨⟨current, maximum, (h.of_step_ret hstep).1⟩, by omega⟩
    · have hp : place (l.append f.header f.payload).firstFragmentOpcode f.header = .initial := by
        simp [Locals.append, hfirst, place, hne, hfin]
      have hagain := onData_initial hx { st with stream := Frame.stream fs ++ s } hd hp hfin
      have hawait := d.awaitLastFragment_initial hoc hfin (l.message ++ f.payload)
      rw [← hawait]
      rcases runs_fragments hx hfs (h.of_step_again (hstep.trans hagain)) rfl rfl ho rfl
        with ⟨htl, hlt⟩ | harr
      · exact Or.inl ⟨htl, hlt.trans_le (Nat.add_le_add_right hsat _)⟩
      · exact Or.inr harr

end Feed

/-! ## Appending to the vector -/

section

variable {F : Flate} {cfg : Config}

/-- The payload that was sent: the content of the message, inflated if the message is compressed.
`none` if it cannot be inflated. -/
def plain (F : Flate) (fs : List (Frame cfg)) : Option (List UInt8) :=
  if Frame.compressed fs && !(Frame.content fs).isEmpty then
    match F.inflate (Frame.content fs ++ emptyBlock) with
    | (_, some _) => none
    | (out, none) => some out
  else some (Frame.content fs)

/-- What makes the payload `p` of a message appear at the end of a vector that held `m₀`.

A message that is not compressed must not be taken for one that is. For one that is compressed, the
vector must have been empty, and the first fragment must not be empty, or the extension must have
been waiting for a last fragment before the message. Otherwise it depends on what the compressed
data happens to be. -/
def Appends (F : Flate) (await : Bool) (m₀ : List UInt8) (fs : List (Frame cfg)) (p : List UInt8) :
    Prop :=
  if Frame.compressed fs then
    m₀ = [] ∧ (Frame.content fs = [] ∨ Frame.firstPayload fs ≠ [] ∨
        Frame.fragmented fs = true ∧ await = true ∨
        (F.inflate (Frame.content fs ++ emptyBlock)).1 = Frame.content fs) ∨
      m₀ ≠ [] ∧ (F.inflate (m₀ ++ Frame.content fs ++ emptyBlock)).1 = m₀ ++ p
  else
    Frame.fragmented fs = false ∨ await = false ∨ m₀ ++ Frame.content fs = [] ∨
      (F.inflate (m₀ ++ Frame.content fs ++ emptyBlock)).1 = m₀ ++ Frame.content fs

theorem plain_of_not_compressed {fs : List (Frame cfg)} {p : List UInt8}
    (h : Frame.compressed fs = false) (hp : plain F fs = some p) : p = Frame.content fs := by
  rw [plain, h] at hp
  exact (Option.some.inj hp).symm

theorem plain_of_nil {fs : List (Frame cfg)} {p : List UInt8} (h : Frame.content fs = [])
    (hp : plain F fs = some p) : p = Frame.content fs := by
  rw [plain, h, List.isEmpty_nil, Bool.not_true, Bool.and_false] at hp
  rw [h]
  exact (Option.some.inj hp).symm

theorem plain_of_compressed {fs : List (Frame cfg)} {p : List UInt8}
    (h : Frame.compressed fs = true) (hne : Frame.content fs ≠ []) (hp : plain F fs = some p) :
    (F.inflate (Frame.content fs ++ emptyBlock)).1 = p := by
  rw [plain, h, List.isEmpty_eq_false_iff.mpr hne] at hp
  rcases hi : F.inflate (Frame.content fs ++ emptyBlock) with ⟨out, _ | e⟩ <;> rw [hi] at hp
  · exact Option.some.inj hp
  · cases hp

theorem inflates_of_not_compressed {await : Bool} {m₀ : List UInt8} {fs : List (Frame cfg)}
    (h : Frame.compressed fs = false) :
    inflates await m₀ fs = true ↔
      ¬(Frame.fragmented fs = false ∨ await = false ∨ m₀ ++ Frame.content fs = []) := by
  rw [inflates, h]
  cases Frame.fragmented fs <;> cases await <;> simp

theorem inflates_of_compressed_nil {await : Bool} {fs : List (Frame cfg)}
    (h : Frame.compressed fs = true) :
    inflates await [] fs = true ↔ Frame.content fs ≠ [] ∧
      (Frame.firstPayload fs ≠ [] ∨ Frame.fragmented fs = true ∧ await = true) := by
  rw [inflates, h]
  simp

theorem inflates_of_compressed {await : Bool} {m₀ : List UInt8} {fs : List (Frame cfg)}
    (h : Frame.compressed fs = true) (hne : m₀ ≠ []) : inflates await m₀ fs = true := by
  rw [inflates, h]
  simp [hne]

/-- **The vector and the condition.** -/
theorem appends_iff {await : Bool} {m₀ p : List UInt8} {fs : List (Frame cfg)}
    (hp : plain F fs = some p) :
    (if inflates await m₀ fs then (F.inflate (m₀ ++ Frame.content fs ++ emptyBlock)).1
      else m₀ ++ Frame.content fs) = m₀ ++ p ↔ Appends F await m₀ fs p := by
  unfold Appends
  cases hcomp : Frame.compressed fs with
  | false =>
    obtain rfl := plain_of_not_compressed hcomp hp
    rw [if_neg Bool.false_ne_true]
    by_cases hi : inflates await m₀ fs = true
    · rw [if_pos hi]
      rw [inflates_of_not_compressed hcomp] at hi
      tauto
    · rw [if_neg hi]
      rw [inflates_of_not_compressed hcomp, not_not] at hi
      exact iff_of_true rfl (by tauto)
  | true =>
    rw [if_pos rfl]
    by_cases hm : m₀ = []
    · subst hm
      by_cases hc : Frame.content fs = []
      · obtain rfl := plain_of_nil hc hp
        have hi : ¬inflates await [] fs = true := by
          rw [inflates_of_compressed_nil hcomp]
          exact fun h => h.1 hc
        rw [if_neg hi]
        exact iff_of_true rfl (Or.inl ⟨rfl, Or.inl hc⟩)
      · have hout := plain_of_compressed hcomp hc hp
        rw [List.nil_append, List.nil_append]
        by_cases hi : inflates await [] fs = true
        · rw [if_pos hi]
          rw [inflates_of_compressed_nil hcomp] at hi
          exact iff_of_true hout (Or.inl ⟨rfl, by tauto⟩)
        · rw [if_neg hi, ← hout]
          rw [inflates_of_compressed_nil hcomp] at hi
          constructor
          · exact fun h => Or.inl ⟨rfl, Or.inr (Or.inr (Or.inr h.symm))⟩
          · rintro (⟨-, h⟩ | ⟨h, -⟩)
            · have h' : (F.inflate (Frame.content fs ++ emptyBlock)).1 = Frame.content fs := by tauto
              exact h'.symm
            · exact absurd rfl h
    · rw [if_pos (inflates_of_compressed hcomp hm)]
      tauto

theorem runs_of_receive {E : Type} [Extension E] {r r' : Receiver} {w w' : World (List E)}
    {m m' : List UInt8} {i : Incoming} (hc : Clean r.reader)
    (h : (r.receive m).run w = (some ⟨.ok i, r', m'⟩, w')) :
    r.isClosed = false ∧ ∃ st', Feed.Runs r.config (Feed.ofReceiver r w.shared) (.start m) (.ok i)
      st' m' := by
  have ho : r.isClosed = false := by
    by_contra hcl
    rw [Receiver.receive, Receiver.receiveLoop] at h
    simp [Receiver.receiveRound, hcl] at h
  obtain ⟨result, st', x, hruns⟩ :=
    Feed.exists_runs r.config (Feed.ofReceiver r w.shared) (.start m)
  refine ⟨ho, ?_⟩
  rcases Feed.sim_receive hruns (Feed.Tracks.start hc ho w) with
    ⟨-, r₁, m₁, w₁, hb⟩ | ⟨r₁, w₁, hrun, -⟩
  · cases h.symm.trans hb
  · cases h.symm.trans hrun
    exact ⟨st', hruns⟩

theorem wrappingSub_append (m p : List UInt8) :
    wrappingSub (m ++ p).length m.length = p.length := by
  rw [List.length_append, wrappingSub, if_pos (Nat.le_add_right _ _), Nat.add_sub_cancel_left]

/-- **When a message is appended to the vector.** A receiver whose only extension is deflate gets a
message, compressed or not, fragmented or not, and a call of `receive` with the vector `m₀` returns
data. The vector is then `m₀` with the payload appended, and the length returned is that of the
payload, just when `Appends` holds. -/
theorem receive_appends_iff {d : Deflate F} {r r' : Receiver} {w w' : World (List (Deflate F))}
    {oc : OpCode} {fs : List (Frame r.config)} {s m₀ m' p : List UInt8} {x : Data}
    (hx : r.hasExtensions = true) (hd : w.shared = [d]) (hc : Clean r.reader) (hm : Message oc fs)
    (hs : r.stream = Frame.stream fs ++ s) (hp : plain F fs = some p)
    (h : (r.receive m₀).run w = (some ⟨.ok (.data x), r', m'⟩, w')) :
    (m' = m₀ ++ p ∧ x = .ofOpCode oc p.length ∧ m₀.length ≤ m'.length) ↔
      Appends F d.awaitLastFragment m₀ fs p := by
  obtain ⟨ho, st', hruns⟩ := runs_of_receive hc h
  rw [← appends_iff hp]
  rcases Feed.runs_deflate hx hm hruns hd hs ho rfl with ⟨⟨_, _, htl⟩, -⟩ | harr
  · cases htl
  have hdata : (if inflates d.awaitLastFragment m₀ fs then
      (F.inflate (m₀ ++ Frame.content fs ++ emptyBlock)).1 else m₀ ++ Frame.content fs) = m' ∧
      x = .ofOpCode oc (wrappingSub m'.length m₀.length) := arrived_ok harr
  rw [hdata.1]
  constructor
  · exact fun h => h.1
  · rintro rfl
    refine ⟨rfl, ?_, ?_⟩
    · rw [hdata.2, wrappingSub_append]
    · rw [List.length_append]
      exact Nat.le_add_right _ _

end

/-- A server with deflate that gets the bytes `bs`. -/
def deflateServer (bs : List UInt8) : Builder (Deflate .stored) :=
  (Builder.new [.data bs] .server).addExtensions [.stored]

/-- The text `a`, compressed: a stored block, and the first byte of an empty block. -/
def compressedA : List UInt8 := storedBlock [97] ++ [0]

/-- A server that gets the compressed text `a` in one frame. -/
def singleServer : Builder (Deflate .stored) := deflateServer ([0xC1, 7] ++ compressedA)

/-- The frame. -/
def singleFrame : Frame singleServer.finish.2.1.config :=
  ⟨[0xC1, 7], { Header.new .text with rsv1 := true, payloadLen := 7 }, compressedA, rfl, rfl⟩

theorem message_singleFrame : Message .text [singleFrame] :=
  .single (f := singleFrame) (Or.inl rfl) rfl

/-- The text `a` is appended to an empty vector. -/
theorem receive_appends_iff_nil :
    ∃ x r' m' w', (singleServer.finish.2.1.receive []).run (singleServer.world []) =
        (some ⟨.ok (.data x), r', m'⟩, w') ∧
      m' = [] ++ [97] ∧ x = .ofOpCode .text 1 ∧ 0 ≤ m'.length := by
  have hrun : ∃ r' w', (singleServer.finish.2.1.receive []).run (singleServer.world []) =
      (some ⟨.ok (.data (.text 1)), r', [97]⟩, w') := ⟨_, _, rfl⟩
  obtain ⟨r', w', h⟩ := hrun
  have happ : Appends .stored Deflate.stored.awaitLastFragment [] [singleFrame] [97] :=
    Or.inl ⟨rfl, Or.inr (Or.inl (by decide))⟩
  exact ⟨_, r', _, w', h, (receive_appends_iff (s := []) rfl rfl clean_nil.data
    message_singleFrame rfl rfl h).mpr happ⟩

/-- The vector held the stored block of `x`: it is inflated, too, and is then shorter than before,
so that the length wraps around. -/
theorem not_receive_appends :
    plain .stored [singleFrame] = some [97] ∧
    ∃ r' w', (singleServer.finish.2.1.receive (storedBlock [120])).run (singleServer.world []) =
        (some ⟨.ok (.data (.text (2 ^ 64 - 4))), r', [120, 97]⟩, w') ∧
      [120, 97] ≠ storedBlock [120] ++ [97] ∧ ¬(storedBlock [120]).length ≤ [120, 97].length :=
  ⟨rfl, _, _, rfl, by decide, by decide⟩

/-! ## Fragments -/

section

variable {F : Flate}

/-- What arrives of the compressed data `c`, when it comes in one frame. -/
def inflated (F : Flate) (oc : OpCode) (c : List UInt8) : Except Error Incoming × List UInt8 :=
  if c = [] then (.ok (.data (.ofOpCode oc 0)), [])
  else
    match F.inflate (c ++ emptyBlock) with
    | (_, some e) => (.error (.extension e), c ++ emptyBlock)
    | (out, none) => (.ok (.data (.ofOpCode oc out.length)), out)

theorem wrappingSub_zero (n : ℕ) : wrappingSub n 0 = n := by
  rw [wrappingSub, if_pos (Nat.zero_le _), Nat.sub_zero]

theorem arrived_true {oc : OpCode} {c : List UInt8} (h : c ≠ []) :
    arrived F true oc 0 c = inflated F oc c := by
  rw [arrived, if_pos rfl, inflated, if_neg h]
  rcases F.inflate (c ++ emptyBlock) with ⟨out, _ | e⟩
  · simp only [wrappingSub_zero]
  · rfl

theorem arrived_false_iff {oc : OpCode} {c : List UInt8} :
    arrived F false oc 0 c = inflated F oc c ↔
      c = [] ∨ F.inflate (c ++ emptyBlock) = (c, none) := by
  rw [arrived, if_neg Bool.false_ne_true, wrappingSub_zero, inflated]
  split_ifs with h
  · subst h
    exact iff_of_true rfl (Or.inl rfl)
  · rcases hi : F.inflate (c ++ emptyBlock) with ⟨out, _ | e⟩
    · constructor
      · intro heq
        obtain rfl : c = out := congrArg Prod.snd heq
        exact Or.inr rfl
      · rintro (hnil | heq)
        · exact absurd hnil h
        · cases heq
          rfl
    · constructor
      · intro heq
        cases heq
      · rintro (hnil | heq)
        · exact absurd hnil h
        · cases heq

/-- **When fragments arrive as one frame does.** A receiver whose only extension is deflate, which is
not waiting for a last fragment, gets a compressed message within the size limits, divided into
frames in any way and with pings in between. A call of `receive` with an empty vector then delivers
what it delivers for one frame just when the first fragment is not empty, or there is no data at
all, or inflating the data does not change it. -/
theorem receive_fragments_iff {d : Deflate F} {r : Receiver} {w : World (List (Deflate F))}
    {oc : OpCode} {fs : List (Frame r.config)} {s : List UInt8} (hx : r.hasExtensions = true)
    (hd : w.shared = [d]) (hawait : d.awaitLastFragment = false) (hc : Clean r.reader)
    (ho : r.isClosed = false) (hw : w.Healthy) (hm : Message oc fs)
    (hcomp : Frame.compressed fs = true) (hs : r.stream = Frame.stream fs ++ s)
    (hmax : Frame.dataLen fs ≤ r.maxMessageSize.toNat) :
    (∃ r' w', (r.receive []).run w = (some ⟨(inflated F oc (Frame.content fs)).1, r',
        (inflated F oc (Frame.content fs)).2⟩, w')) ↔
      Frame.firstPayload fs ≠ [] ∨ Frame.content fs = [] ∨
        F.inflate (Frame.content fs ++ emptyBlock) = (Frame.content fs, none) := by
  obtain ⟨result, st', m, hruns⟩ :=
    Feed.exists_runs r.config (Feed.ofReceiver r w.shared) (.start [])
  have hrun : ∃ r' w', (r.receive []).run w = (some ⟨result, r', m⟩, w') := by
    rcases Feed.sim_receive hruns (Feed.Tracks.start hc ho w) with ⟨hb, -⟩ | ⟨r', w', h, -⟩
    · exact absurd hw hb
    · exact ⟨r', w', h⟩
  have harr : (result, m) =
      arrived F (inflates d.awaitLastFragment [] fs) oc 0 (Frame.content fs) := by
    rcases Feed.runs_deflate hx hm hruns hd hs ho rfl with ⟨-, hlt⟩ | harr
    · have hstart : (Locals.start []).length = 0 := rfl
      have hcfg : r.config.maxMessageSize = r.maxMessageSize := rfl
      rw [hstart, hcfg] at hlt
      omega
    · exact harr
  have hiff : (∃ r' w', (r.receive []).run w = (some ⟨(inflated F oc (Frame.content fs)).1, r',
      (inflated F oc (Frame.content fs)).2⟩, w')) ↔
      (result, m) = inflated F oc (Frame.content fs) := by
    obtain ⟨r', w', hrun⟩ := hrun
    constructor
    · rintro ⟨r₁, w₁, h⟩
      cases hrun.symm.trans h
      rfl
    · intro h
      rw [← h]
      exact ⟨r', w', hrun⟩
  rw [hiff, harr]
  by_cases hi : inflates d.awaitLastFragment [] fs = true
  · obtain ⟨hne, hor⟩ := (inflates_of_compressed_nil hcomp).mp hi
    rw [hi, arrived_true hne]
    refine iff_of_true rfl (Or.inl ?_)
    rcases hor with hor | ⟨-, hor⟩
    · exact hor
    · rw [hawait] at hor
      cases hor
  · rw [Bool.eq_false_iff.mpr hi, arrived_false_iff]
    rw [inflates_of_compressed_nil hcomp] at hi
    tauto

end

/-- A server that gets the compressed text `a` in two frames, with a ping in between; `c₁` is the
payload of the first frame. -/
def dividedServer (c₁ c₂ : List UInt8) : Builder (Deflate .stored) :=
  deflateServer ([0x41, UInt8.ofNat c₁.length] ++ c₁ ++ ([0x89, 0] ++
    ([0x80, UInt8.ofNat c₂.length] ++ c₂)))

theorem length_pingBody : ([] : List UInt8).length = (Header.new .ping).payloadLen := rfl

/-- The frames, with the first one of one byte. -/
def dividedFrames : List (Frame (dividedServer [0] (compressedA.drop 1)).finish.2.1.config) :=
  [⟨[0x41, 1], { Header.new .text with fin := false, rsv1 := true, payloadLen := 1 }, [0], rfl, rfl⟩,
    ⟨[0x89, 0], Header.new .ping, [], rfl, length_pingBody⟩,
    ⟨[0x80, 6], { Header.new .continue with payloadLen := 6 }, compressedA.drop 1, rfl, rfl⟩]

/-- Two fragments that are not empty arrive as one frame does. -/
theorem receive_fragments_iff_divided :
    ∃ r' w', ((dividedServer [0] (compressedA.drop 1)).finish.2.1.receive []).run
      ((dividedServer [0] (compressedA.drop 1)).world []) =
        (some ⟨(inflated .stored .text compressedA).1, r',
          (inflated .stored .text compressedA).2⟩, w') := by
  have hm : Message .text dividedFrames :=
    .fragmented (f := dividedFrames.head (by decide)) (Or.inl rfl) rfl
      (.more (Or.inl rfl) (.last rfl rfl))
  exact (receive_fragments_iff (s := []) rfl rfl rfl clean_nil.data rfl ⟨rfl, rfl⟩ hm rfl rfl
    (by decide)).mpr (Or.inl (by decide))

/-- With an empty first fragment, the compressed data itself arrives. -/
theorem not_receive_fragments :
    inflated .stored .text compressedA = (.ok (.data (.text 1)), [97]) ∧
    ∃ r' w', ((dividedServer [] compressedA).finish.2.1.receive []).run
      ((dividedServer [] compressedA).world []) =
        (some ⟨.ok (.data (.text 7)), r', compressedA⟩, w') ∧ compressedA ≠ [97] :=
  ⟨rfl, _, _, rfl, by decide⟩

end Soketto
