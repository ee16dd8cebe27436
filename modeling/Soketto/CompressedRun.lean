import Soketto.Carried
import Soketto.Compressed
import Soketto.Deflated

/-!
# Compressed messages between two ends

A connection whose only extension is deflate. Its halves share one buffer: `encode` takes it for the
output of the compressor and leaves another, and `decode` of what the other end sends replaces it.

* **`exists_calls_of_compressing`**: what the loops of `encode` return, they return after the calls up
  to the first state that passes the test.
* `Flate.Lawful.Delivers`: whatever the buffer, the bytes delivered for a payload are unambiguous, and
  not too many for the peer. **`carries_deflate`**: deflate carries such a payload.
* **`compressed_messages_arrive`**: the messages arrive, in any interleaving.
-/

set_option autoImplicit false

namespace Soketto

open Incremental Chunked BigEndian Interleave

variable {F : Flate}

namespace Deflate

/-! ## What the loops return -/

section Loops

variable {data : List UInt8} {r : Except BoxedError Unit} {c : F.Compress} {v : Vec}

theorem exists_calls_of_compressInput (hF : F.Lawful) {fuel : ℕ} {s : F.Compress × Vec}
    (h : compressInput fuel s.1 data s.2 = some (r, c, v)) :
    r = .ok () ∧ ∃ k, (call data)^[k] s = (c, v) ∧ Consumed data (c, v) ∧
      ∀ j < k, ¬Consumed data ((call data)^[j] s) := by
  induction fuel generalizing s with
  | zero => cases h
  | succ fuel ih =>
    rw [compressInput] at h
    by_cases hlt : F.totalIn s.1 < data.length
    · rw [if_pos hlt] at h
      dsimp only at h
      have hnext : compressInput fuel (call data s).1 data (call data s).2 = some (r, c, v) := by
        rw [call, if_pos hlt]
        rcases hcall : F.compressVec s.1 (data.drop (F.totalIn s.1)) s.2.spare .none with ⟨x, c', out⟩
        rw [hcall] at h
        rcases hF.status hcall with rfl | rfl
        · exact h
        · exact h
      obtain ⟨hr, k, hk, hc, hmin⟩ := ih hnext
      refine ⟨hr, k + 1, hk, hc, fun j hj => ?_⟩
      cases j with
      | zero => exact not_le.mpr hlt
      | succ j => exact hmin j (by omega)
    · rw [if_neg hlt] at h
      cases h
      exact ⟨rfl, 0, rfl, not_lt.mp hlt, fun j hj => absurd hj (Nat.not_lt_zero j)⟩

theorem exists_calls_of_appendEmptyBlock (hF : F.Lawful) {fuel : ℕ} {s : F.Compress × Vec}
    (hc : Consumed data s) (h : appendEmptyBlock fuel s.1 s.2 = some (r, c, v)) :
    r = .ok () ∧ ∃ k, (call data)^[k] s = (c, v) ∧ emptyBlock <:+ v.bytes ∧
      ∀ j < k, ¬emptyBlock <:+ ((call data)^[j] s).2.bytes := by
  induction fuel generalizing s with
  | zero => cases h
  | succ fuel ih =>
    rw [appendEmptyBlock] at h
    by_cases hs : emptyBlock.isSuffixOf s.2.bytes = true
    · rw [if_pos hs] at h
      cases h
      exact ⟨rfl, 0, rfl, List.isSuffixOf_iff_suffix.mp hs, fun j hj => absurd hj (Nat.not_lt_zero j)⟩
    · rw [if_neg hs] at h
      dsimp only at h
      have hnext : appendEmptyBlock fuel (call data s).1 (call data s).2 = some (r, c, v) := by
        rw [call, if_neg (not_lt.mpr hc)]
        rcases hcall : F.compressVec s.1 [] (s.2.reserve 5).spare .sync with ⟨x, c', out⟩
        rw [hcall] at h
        rcases hF.status hcall with rfl | rfl
        · exact h
        · exact h
      obtain ⟨hr, k, hk, hend, hmin⟩ := ih (hF.consumed_iterate hc 1) hnext
      refine ⟨hr, k + 1, hk, hend, fun j hj => ?_⟩
      cases j with
      | zero => exact fun h => hs (List.isSuffixOf_iff_suffix.mpr h)
      | succ j => exact hmin j (by omega)

/-- **What the loops return**, they return after the calls up to the first state that passes the
test. -/
theorem exists_calls_of_compressing (hF : F.Lawful) (self : Deflate F)
    (h : self.compressing data = some (r, c, v)) :
    r = .ok () ∧ ∃ k, self.calls data k = (c, v) ∧ Ends data (c, v) ∧
      ∀ j < k, ¬Ends data (self.calls data j) := by
  unfold compressing at h
  rcases hin : compressInput F.rounds (self.initial data).1 data (self.initial data).2
    with _ | ⟨x, c₁, v₁⟩ <;> rw [hin] at h
  · cases h
  obtain ⟨rfl, k₁, hk₁, hc, hmin₁⟩ := exists_calls_of_compressInput hF hin
  obtain ⟨hr, k₂, hk₂, hend, hmin₂⟩ := exists_calls_of_appendEmptyBlock (s := (c₁, v₁)) hF hc h
  have hcalls : ∀ j, self.calls data (j + k₁) = (call data)^[j] (c₁, v₁) := fun j => by
    rw [calls, Function.iterate_add_apply, hk₁]
  refine ⟨hr, k₂ + k₁, (hcalls k₂).trans hk₂, ⟨hk₂ ▸ hF.consumed_iterate hc k₂, hend⟩, fun j hj hends => ?_⟩
  rcases Nat.lt_or_ge j k₁ with hlt | hge
  · exact hmin₁ j hlt hends.1
  · obtain ⟨i, rfl⟩ : ∃ i, j = i + k₁ := ⟨j - k₁, by omega⟩
    rw [hcalls] at hends
    exact hmin₂ i (by omega) hends.2

end Loops

/-! ## What is encoded -/

variable {self : Deflate F} {header : Header} {data : Storage} {enc : Encoded (Deflate F)}

theorem encode_idle (h : data.asRef = [] ∨ ¬(header.opcode = .binary ∨ header.opcode = .text)) :
    self.encode header data = some ⟨.ok (), self, header, data⟩ := by
  unfold encode
  rcases h with h | h
  · rw [if_pos (by rw [h]; rfl)]
  · rw [if_pos h]
    split_ifs <;> rfl

/-- **What `encode` returns**: the bytes that the compressor has delivered in the first state that
passes the test, without the empty block. -/
theorem exists_ends_of_encode (hF : F.Lawful) (hne : data.asRef ≠ [])
    (hoc : header.opcode = .text ∨ header.opcode = .binary)
    (h : self.encode header data = some enc) :
    enc.result = .ok () ∧ enc.header = { header with rsv1 := true, payloadLen := enc.data.asRef.length } ∧
      ∃ k, Ends data.asRef (self.calls data.asRef k) ∧
        (∀ j < k, ¬Ends data.asRef (self.calls data.asRef j)) ∧
        enc.data.asRef ++ emptyBlock = (self.calls data.asRef k).2.bytes := by
  rcases hcomp : self.compressing data.asRef with _ | ⟨r, c, v⟩
  · have hdata : self.compressData data.asRef = none := by rw [compressData_eq, hcomp]; rfl
    unfold encode at h
    rw [if_neg (by simpa using hne), if_neg (not_not.mpr hoc.symm), hdata] at h
    cases h
  · obtain ⟨rfl, k, hk, hends, hmin⟩ := exists_calls_of_compressing hF self hcomp
    obtain ⟨enc', henc', hres, hheader, hbytes⟩ := encode_of_compressing hne hoc hcomp hends.2
    cases henc'.symm.trans h
    exact ⟨hres, hheader, k, hk ▸ hends, hmin, by rw [hk]; exact hbytes⟩

theorem inflate_of_encode (hF : F.Lawful)
    (hb : 9 ≤ self.ourMaxWindowBits ∧ self.ourMaxWindowBits ≤ 15) (hne : data.asRef ≠ [])
    (hoc : header.opcode = .text ∨ header.opcode = .binary)
    (h : self.encode header data = some enc) (hu : hF.Unambiguous self data.asRef) :
    enc.data.asRef ≠ [] ∧ F.inflate (enc.data.asRef ++ emptyBlock) = (data.asRef, none) := by
  obtain ⟨-, -, k, hends, hmin, hbytes⟩ := exists_ends_of_encode hF hne hoc h
  have hflushed := (flushed_iff_unambiguous hF hb hmin hends).mpr hu
  have hdel : hF.Delivering data.asRef (self.calls data.asRef k) := delivering_calls hF hb k
  have hinfl : F.inflate (enc.data.asRef ++ emptyBlock) = (data.asRef, none) := by
    rw [hbytes, ← hdel.output, (hF.flushed_spec hflushed).2, hdel.eq_of_consumed hends.1]
  refine ⟨fun hnil => hne ?_, hinfl⟩
  have hempty := hF.inflate_emptyBlock
  rw [hnil, List.nil_append] at hinfl
  rw [hinfl] at hempty
  exact hempty

theorem ourMaxWindowBits_encode (h : self.encode header data = some enc) :
    enc.ext.ourMaxWindowBits = self.ourMaxWindowBits := by
  unfold encode at h
  split_ifs at h
  · cases h
    rfl
  · split at h
    · cases h
    · cases h
      rfl
    · split_ifs at h <;> cases h <;> rfl
  · cases h
    rfl

theorem ourMaxWindowBits_decode (self : Deflate F) (header : Header) (data : List UInt8) :
    (self.decode header data).ext.ourMaxWindowBits = self.ourMaxWindowBits := by
  have hinfl : ∀ d : Deflate F, (d.inflateData header data).ext.ourMaxWindowBits = d.ourMaxWindowBits := by
    intro d
    unfold inflateData
    dsimp only
    split <;> rfl
  unfold decode
  split_ifs
  · rfl
  · rfl
  · exact hinfl self
  · exact hinfl _
  · rfl

/-! ## Deflate alone -/

/-- The only extension is deflate, with a window of this size. -/
def Alone (bits : UInt8) (es : List (Deflate F)) : Prop := ∃ d, es = [d] ∧ d.ourMaxWindowBits = bits

theorem encodeAll_alone (d : Deflate F) (header : Header) (data : Storage) :
    Extension.encodeAll [d] header data =
      (d.encode header data).map fun enc => ⟨enc.result, [enc.ext], enc.header, enc.data⟩ := by
  have henc : Extension.encode d header data = d.encode header data := rfl
  rw [Extension.encodeAll, henc]
  rcases d.encode header data with _ | ⟨e | u, ext, header', data'⟩ <;> rfl

theorem decodeAll_alone (d : Deflate F) (header : Header) (data : List UInt8) :
    (Extension.decodeAll [d] header data).ext = [(d.decode header data).ext] := by
  have hdec : Extension.decode d header data = d.decode header data := rfl
  simp only [Extension.decodeAll, hdec]
  rcases (d.decode header data).result with e | u <;> rfl

theorem Alone.exists_encode {bits : UInt8} {es : List (Deflate F)} {enc : Encoded (List (Deflate F))}
    (h : Alone bits es) (henc : Extension.encodeAll es header data = some enc) :
    ∃ (d : Deflate F) (x : Encoded (Deflate F)), d.ourMaxWindowBits = bits ∧
      d.encode header data = some x ∧ enc = ⟨x.result, [x.ext], x.header, x.data⟩ := by
  obtain ⟨d, rfl, hd⟩ := h
  rw [encodeAll_alone] at henc
  obtain ⟨x, hx, rfl⟩ := Option.map_eq_some_iff.mp henc
  exact ⟨d, x, hd, hx, rfl⟩

theorem kept_alone (bits : UInt8) : Extension.Kept (Alone (F := F) bits) where
  encode h henc := by
    obtain ⟨d, rfl, rfl⟩ := h
    rw [encodeAll_alone] at henc
    obtain ⟨enc, he, rfl⟩ := Option.map_eq_some_iff.mp henc
    exact ⟨enc.ext, rfl, ourMaxWindowBits_encode he⟩
  decode h header data := by
    obtain ⟨d, rfl, rfl⟩ := h
    exact ⟨_, decodeAll_alone d header data, ourMaxWindowBits_decode d header data⟩

end Deflate

/-! ## Deflate carries messages -/

/-- Whatever its buffer, deflate with a window of this size delivers unambiguous bytes for the payload,
within the limits of the peer. -/
structure Flate.Lawful.Delivers (hF : F.Lawful) (bits : UInt8) (cfg : Config) (payload : List UInt8) :
    Prop where
  unambiguous (d : Deflate F) (hd : d.ourMaxWindowBits = bits) : hF.Unambiguous d payload
  limits {d : Deflate F} (hd : d.ourMaxWindowBits = bits) {header : Header} {data : Storage}
    {enc : Encoded (Deflate F)} (hdata : data.asRef = payload) (henc : d.encode header data = some enc) :
    enc.data.asRef.length ≤ cfg.maxDataSize.toNat ∧ enc.data.asRef.length ≤ cfg.maxMessageSize.toNat

/-- A receiver whose only extension is deflate. -/
structure Config.Inflates (cfg : Config) : Prop where
  hasExtensions : cfg.hasExtensions = true
  rsv1 : (cfg.reservedBits &&& 4 == 0) = false

/-- There is one extension, which is deflate. -/
def Deflate.Only (es : List (Deflate F)) : Prop := ∃ d, es = [d]

theorem Op.exists_data_frame {op : Op} {f : Outgoing} (hf : op.frame = some f)
    (hdata : f.header.opcode.isControl = false) :
    ∃ oc, (oc = .text ∨ oc = .binary) ∧ f = ⟨Header.new oc, f.payload⟩ := by
  cases op <;> cases hf
  case sendPing => cases hdata
  case sendPong => cases hdata
  case close => cases hdata
  all_goals first
    | exact ⟨.text, Or.inl rfl, rfl⟩
    | exact ⟨.binary, Or.inr rfl, rfl⟩

theorem Op.plain_control {cfg : Config} {op : Op} {f : Outgoing} (hf : op.frame = some f)
    (hctl : f.header.opcode.isControl = true) (hcfg : maxCtrlBodySize ≤ cfg.maxDataSize.toNat) :
    f.Plain cfg := by
  refine Op.plain_frame hf fun g hg => ?_
  obtain rfl : f = g := Option.some.inj (hf.symm.trans hg)
  refine ⟨((Op.proper_frame 0 hf).control_len hctl).trans hcfg, fun h => ?_⟩
  rw [hctl] at h
  cases h

section Carries

variable {cfg : Config} {bits : UInt8} {oc : OpCode} {payload : List UInt8}

theorem standsFor_empty (hcfg : cfg.Inflates) (hoc : oc = .text ∨ oc = .binary) :
    Outgoing.StandsFor cfg (Deflate.Only (F := F)) ⟨Header.new oc, []⟩ ⟨Header.new oc, []⟩ where
  accepts := accepts_sealed (by rcases hoc with rfl | rfl <;> rfl)
    (fun _ => Nat.zero_le _) (Nat.zero_le _)
  fin := rfl
  opcode := rfl
  not_continue := (isControl_of_text_or_binary hoc).2
  control _ := rfl
  message_len _ := Nat.zero_le _
  decode _ mode mask st hq := by
    obtain ⟨d, hd⟩ := hq
    refine ⟨[d], Outgoing.sealed mode mask ⟨Header.new oc, []⟩, ⟨d, rfl⟩, Outgoing.opcode_sealed _ _ _, ?_⟩
    rw [Feed.decode_deflate hcfg.hasExtensions hd]
    rfl

theorem standsFor_compressed (hcfg : cfg.Inflates) (hoc : oc = .text ∨ oc = .binary) {n : ℕ}
    {x : List UInt8} (hx : x ≠ []) (hinfl : F.inflate (x ++ emptyBlock) = (payload, none))
    (hdata : x.length ≤ cfg.maxDataSize.toNat) (hmsg : x.length ≤ cfg.maxMessageSize.toNat) :
    Outgoing.StandsFor cfg (Deflate.Only (F := F))
      ⟨{ Header.new oc with rsv1 := true, payloadLen := n }, x⟩ ⟨Header.new oc, payload⟩ where
  accepts mode mask := by
    have hres : oc.isReserved = false := by rcases hoc with rfl | rfl <;> rfl
    have hnot : ∀ {p : Prop}, oc.isControl = true → p := fun h => by
      rw [(isControl_of_text_or_binary hoc).1] at h
      cases h
    cases mode with
    | client =>
      exact ⟨hres, fun _ => rfl, fun h => hnot h, fun _ => hcfg.rsv1, fun h => (by cases h),
        fun h => (by cases h), hdata, fun h => (by cases h)⟩
    | server =>
      exact ⟨hres, fun _ => rfl, fun h => hnot h, fun _ => hcfg.rsv1, fun h => (by cases h),
        fun h => (by cases h), hdata, fun _ => rfl⟩
  fin := rfl
  opcode := rfl
  not_continue := (isControl_of_text_or_binary hoc).2
  control h := by
    have hctl : oc.isControl = true := h
    rw [(isControl_of_text_or_binary hoc).1] at hctl
    cases hctl
  message_len _ := hmsg
  decode _ mode mask st hq := by
    obtain ⟨d, hd⟩ := hq
    let header := Outgoing.sealed mode mask ⟨{ Header.new oc with rsv1 := true, payloadLen := n }, x⟩
    have hdec : d.decode header x = ⟨.ok (), { d with buffer := Vec.ofBytes (x ++ emptyBlock) },
        { header with rsv1 := false, payloadLen := payload.length }, payload⟩ := by
      have hkind : header.opcode = .binary ∨ header.opcode = .text := by
        rw [Outgoing.opcode_sealed]
        exact hoc.symm
      have hrsv1 : header.rsv1 = true := by cases mode <;> rfl
      have hfin : header.fin = true := Outgoing.fin_sealed _ _ _
      rw [Deflate.decode, if_neg (by simpa using hx), if_pos ⟨hkind, hrsv1⟩, if_neg (by simp [hfin]),
        Deflate.inflateData]
      simp only [hinfl]
    refine ⟨[{ d with buffer := Vec.ofBytes (x ++ emptyBlock) }],
      { header with rsv1 := false, payloadLen := payload.length }, ⟨_, rfl⟩, Outgoing.opcode_sealed _ _ _, ?_⟩
    rw [Feed.decode_deflate hcfg.hasExtensions hd, hdec]

/-- **Deflate carries the frames of operations** for whose payloads it delivers unambiguous bytes. -/
theorem carries_deflate (hF : F.Lawful) (hb : 9 ≤ bits ∧ bits ≤ 15) (hcfg : cfg.Inflates)
    (hctl : maxCtrlBodySize ≤ cfg.maxDataSize.toNat) {op : Op} {f : Outgoing} (hf : op.frame = some f)
    (hdel : f.header.opcode.isControl = false → f.payload ≠ [] → hF.Delivers bits cfg f.payload) :
    f.Carries (Deflate.Alone (F := F) bits) cfg (Deflate.Only (F := F)) := by
  cases hc : f.header.opcode.isControl with
  | true => exact (Op.plain_control hf hc hctl).carries_control hc _ _
  | false =>
    obtain ⟨oc, hoc, hfeq⟩ := Op.exists_data_frame hf hc
    obtain ⟨header, payload⟩ := f
    obtain rfl : header = Header.new oc := congrArg Outgoing.header hfeq
    dsimp only at hdel
    constructor
    · intro es data enc _ hes hdata henc
      obtain ⟨d, x, rfl, hx, rfl⟩ := hes.exists_encode henc
      by_cases hne : data.asRef = []
      · rw [Deflate.encode_idle (Or.inl hne)] at hx
        cases hx
        rfl
      · exact (Deflate.exists_ends_of_encode hF hne hoc hx).1
    · intro g hg
      cases hg with
      | control h =>
        rw [hc] at h
        cases h
      | @data es data enc _ hes hdata henc =>
        obtain ⟨d, x, rfl, hx, rfl⟩ := hes.exists_encode henc
        obtain rfl : data.asRef = payload := hdata
        by_cases hne : data.asRef = []
        · rw [Deflate.encode_idle (Or.inl hne)] at hx
          cases hx
          rw [hne]
          exact standsFor_empty hcfg hoc
        · have hdelivers := hdel hc hne
          obtain ⟨-, hh, -⟩ := Deflate.exists_ends_of_encode hF hne hoc hx
          obtain ⟨hne', hinfl⟩ := Deflate.inflate_of_encode hF hb hne hoc hx
            (hdelivers.unambiguous d rfl)
          obtain ⟨h₁, h₂⟩ := hdelivers.limits rfl rfl hx
          rw [hh]
          exact standsFor_compressed hcfg hoc hne' hinfl h₁ h₂

end Carries

/-- **Compression changes nothing.** The halves of a connection whose only extension is deflate share
its buffer, and race for it and for a writer that may break at any time, with any operations, any bytes
received and any calls. A peer with deflate reads what is on the wire at any moment, split in any way. If
the bytes delivered for the payloads are unambiguous, its calls with empty vectors return the messages
of the operations. -/
theorem compressed_messages_arrive (hF : F.Lawful) {b : Builder (Deflate F)} {d : Deflate F}
    (hx : b.extensions = [d]) (hb : 9 ≤ d.ourMaxWindowBits ∧ d.ourMaxWindowBits ≤ 15)
    (maskBuffer : List UInt8) (ops : List Op) (ms : List (List UInt8))
    {st : Fuse Half Half.Output (List (Deflate F))}
    (h : Relation.ReflTransGen Fuse.Step
      (Fuse.init (halves { b.finish.1 with maskBuffer } b.finish.2.1 ops ms) b.finish.2.2) st)
    {p : Receiver} {v : World (List (Deflate F))} (hp : p.ReadyWith Deflate.Only v)
    (hcfg : p.config.Inflates) (hstream : p.stream = st.wire)
    (hops : ∀ op ∈ ops, ∀ f ∈ op.frame, f.header.opcode.isControl = false → f.payload ≠ [] →
      hF.Delivers d.ourMaxWindowBits p.config f.payload)
    (hctl : maxCtrlBodySize ≤ p.config.maxDataSize.toNat) : ∃ sent, Carried b ops ms st p v sent := by
  have hne : b.extensions ≠ [] := by rw [hx]; exact List.cons_ne_nil d []
  have hcarries : ∀ op ∈ ops, ∀ f ∈ op.frame,
      f.Carries (Deflate.Alone d.ourMaxWindowBits) p.config (Deflate.Only (F := F)) :=
    fun op hop f hf => carries_deflate hF hb hcfg hctl hf (hops op hop f hf)
  exact messages_carried hne (Deflate.kept_alone _) ⟨d, hx, rfl⟩ maskBuffer ops ms h hp hstream hcarries
    hctl

/-! ## An example -/

namespace Blocks

variable {data : List UInt8}

/-- The compressor has got nothing or all of the data, and has not been flushed before that. -/
def OfData (data : List UInt8) (c : Blocks) : Prop :=
  c.segments = [] ∧ c.delivered = 0 ∧ (c.held = [] ∨ c.held = data) ∨ c.segments = [data] ∧ c.held = []

theorem OfData.deliver {c : Blocks} (h : c.OfData data) (spare : ℕ) : (c.deliver spare).OfData data := by
  rcases h with ⟨hs, hd, hh⟩ | h
  · refine Or.inl ⟨hs, ?_, hh⟩
    simp [Blocks.deliver, ready, hs, hd, generated]
  · exact Or.inr h

theorem OfData.output {c : Blocks} (h : c.OfData data) (hs : emptyBlock <:+ c.output) :
    c.segments = [data] ∧ c.held = [] := by
  rcases h with ⟨hnil, -⟩ | h
  · rw [Blocks.output, hnil] at hs
    have hempty : (generated []).take c.delivered = [] := by simp [generated]
    rw [hempty, List.suffix_nil] at hs
    cases hs
  · exact h

theorem ofData_calls (hne : data ≠ []) (d : Deflate .blocks) (k : ℕ) :
    Blocks.OfData data (d.calls data k).1 := by
  induction k with
  | zero => exact Or.inl ⟨rfl, rfl, Or.inl rfl⟩
  | succ k ih =>
    rw [Deflate.calls, Function.iterate_succ_apply']
    generalize hs : (Deflate.call data)^[k] (d.initial data) = s
    rw [Deflate.calls, hs] at ih
    obtain ⟨c, v⟩ := s
    have hpos : 0 < data.length := List.length_pos_iff.mpr hne
    have htotal : Flate.blocks.totalIn c = c.input.length := rfl
    unfold Deflate.call
    dsimp only at ih ⊢
    split_ifs with hlt
    · -- nothing has been consumed
      rw [htotal] at hlt ⊢
      have hnew : c.segments = [] ∧ c.delivered = 0 ∧ c.held = [] := by
        rcases ih with ⟨hs, hd, hh | hh⟩ | ⟨hs, hh⟩
        · exact ⟨hs, hd, hh⟩
        · simp [input, hs, hh] at hlt
        · simp [input, hs, hh] at hlt
      have hinput : c.input.length = 0 := by simp [input, hnew.1, hnew.2.2]
      rw [hinput, List.drop_zero]
      have hheld : (c.hold data).OfData data := Or.inl ⟨hnew.1, hnew.2.1, Or.inr (by simp [hold, hnew])⟩
      rcases hcall : Flate.blocks.compressVec c data v.spare .none with ⟨r, c', out⟩
      obtain ⟨-, ⟨-, rfl, rfl⟩ | ⟨-, rfl, rfl⟩⟩ := compressVec_none_cases hcall
      · exact ih.deliver _
      · exact hheld.deliver _
    · -- all input has been consumed
      refine OfData.deliver ?_ _
      have hold_nil : c.hold [] = c := by
        obtain ⟨segments, held, delivered, hle⟩ := c
        simp [hold]
      rw [htotal] at hlt
      rw [hold_nil]
      rcases ih with ⟨hs, hd, hh | hh⟩ | ⟨hs, hh⟩
      · simp [input, hs, hh, hpos] at hlt
      · right
        simp [flush, hs, hh, hne]
      · right
        simp [flush, hs, hh]

variable {d : Deflate .blocks} {k : ℕ}

theorem of_ends (hne : data ≠ []) (hb : 9 ≤ d.ourMaxWindowBits ∧ d.ourMaxWindowBits ≤ 15)
    (h : Deflate.Ends data (d.calls data k)) :
    (d.calls data k).1.held = [] ∧ (d.calls data k).1.segments = [data] ∧
      (d.calls data k).2.bytes = (generated [data]).take (d.calls data k).1.delivered := by
  have hdel : Flate.lawfulBlocks.Delivering data (d.calls data k) :=
    delivering_calls Flate.lawfulBlocks hb k
  have hout : (d.calls data k).1.output = (d.calls data k).2.bytes := hdel.output
  obtain ⟨hs, hh⟩ := (ofData_calls hne d k).output (hout ▸ h.2)
  have htake : (d.calls data k).1.output =
      (generated (d.calls data k).1.segments).take (d.calls data k).1.delivered := rfl
  exact ⟨hh, hs, by rw [← hout, htake, hs]⟩

/-- The bytes delivered for data are unambiguous if only all of them end in those of an empty block. -/
theorem unambiguous (hne : data ≠ []) (hb : 9 ≤ d.ourMaxWindowBits ∧ d.ourMaxWindowBits ≤ 15)
    (hend : ∀ n, emptyBlock <:+ (generated [data]).take n → (generated [data]).length ≤ n) :
    Flate.lawfulBlocks.Unambiguous d data := by
  intro k _ hends
  obtain ⟨hh, hs, hbytes⟩ := of_ends hne hb hends
  have hle := (d.calls data k).1.delivered_le
  have hlen := hend _ (hbytes ▸ hends.2)
  rw [hs] at hle
  refine decide_eq_true ⟨hh, by rw [hs]; exact List.cons_ne_nil _ _, ?_⟩
  rw [hs]
  omega

theorem length_encode (hne : data ≠ []) (hb : 9 ≤ d.ourMaxWindowBits ∧ d.ourMaxWindowBits ≤ 15)
    {header : Header} {store : Storage} {enc : Encoded (Deflate .blocks)} (hdata : store.asRef = data)
    (h : d.encode header store = some enc) :
    enc.data.asRef.length ≤ max data.length (generated [data]).length := by
  by_cases hoc : header.opcode = .text ∨ header.opcode = .binary
  · obtain ⟨-, -, k, hends, -, hbytes⟩ :=
      Deflate.exists_ends_of_encode Flate.lawfulBlocks (hdata ▸ hne) hoc h
    rw [hdata] at hends hbytes
    obtain ⟨-, -, htake⟩ := of_ends hne hb hends
    have hlen := congrArg List.length (hbytes.trans htake)
    rw [List.length_append, List.length_take] at hlen
    omega
  · rw [Deflate.encode_idle (Or.inr fun h => hoc h.symm)] at h
    cases h
    rw [hdata]
    exact le_max_left _ _

theorem delivers_seven {cfg : Config} (hdata : 11 ≤ cfg.maxDataSize.toNat)
    (hmessage : 11 ≤ cfg.maxMessageSize.toNat) : Flate.lawfulBlocks.Delivers 15 cfg [7] where
  unambiguous d hd := by
    refine unambiguous (by decide) (by rw [hd]; decide) fun n hn => ?_
    by_contra hlt
    have hshort : ∀ n < 11, ¬emptyBlock.isSuffixOf ((generated [[7]]).take n) = true := by decide
    exact hshort n (not_le.mp hlt) (List.isSuffixOf_iff_suffix.mpr hn)
  limits hd _ _ _ hstore henc := by
    have hlen := length_encode (by decide) (by rw [hd]; decide) hstore henc
    have hmax : max [(7 : UInt8)].length (generated [[7]]).length = 11 := by decide
    rw [hmax] at hlen
    exact ⟨hlen.trans hdata, hlen.trans hmessage⟩

end Blocks

/-- A connection with deflate that is sent the bytes `bs`. -/
def blocksEnd (mode : Mode) (bs : List UInt8) : Builder (Deflate .blocks) :=
  (Builder.new [.data bs] mode).addExtensions [.blocks]

/-- The byte 7, compressed. -/
def compressedSeven : List UInt8 := [0xC2, 7, 0, 1, 0, 0xFE, 0xFF, 7, 0]

/-- A server with deflate that is sent an empty ping. -/
def pingedBlocks : Builder (Deflate .blocks) := blocksEnd .server [0x89, 0x80, 0, 0, 0, 0]

theorem encodeAll_seven {d : Deflate .blocks} (hd : d.buffer = Deflate.blocks.buffer) :
    Extension.encodeAll [d] (Header.new .binary) (.shared [7]) =
      some ⟨.ok (), [{ d with buffer := .ofBytes [] }],
        { Header.new .binary with rsv1 := true, payloadLen := 7 }, .owned (compressedSeven.drop 2)⟩ := by
  have hcalls : (Deflate.blocks.compressData [7]).map (fun x => (x.1, x.2.bytes)) =
      some (.ok (), compressedSeven.drop 2 ++ emptyBlock) := by decide +kernel
  have hsame : d.compressData [7] = Deflate.blocks.compressData [7] := by
    unfold Deflate.compressData
    rw [hd]
    rfl
  obtain ⟨⟨r, v⟩, hv, hparts⟩ := Option.map_eq_some_iff.mp hcalls
  obtain ⟨rfl, hbytes⟩ := Prod.mk.inj hparts
  have hend : ¬(!emptyBlock.isSuffixOf v.bytes) = true := by rw [hbytes]; decide
  have hdata : v.bytes.take (v.bytes.length - 4) = compressedSeven.drop 2 := by rw [hbytes]; rfl
  have henc : d.encode (Header.new .binary) (.shared [7]) = some ⟨.ok (), { d with buffer := .ofBytes [] },
      { Header.new .binary with rsv1 := true, payloadLen := 7 }, .owned (compressedSeven.drop 2)⟩ := by
    have hrun : d.compressData (Storage.shared [7]).asRef = some (.ok (), v) := hsame.trans hv
    rw [Deflate.encode, if_neg (by decide), if_neg (by decide), hrun]
    simp only [if_neg hend, hdata]
    · rfl
    · exact fun _ h => by cases h
  rw [Deflate.encodeAll_alone, henc]
  rfl

/-- The server has sent the byte 7, and the writer breaks in the answer to the ping. -/
theorem compressed_messages_arrive_broken :
    ∃ (st : Fuse Half Half.Output (List (Deflate .blocks))) (sent : List (Half × Outgoing)),
      st.broken = true ∧ st.wire = compressedSeven ++ [0x8A] ∧
      Carried pingedBlocks [.sendBinary [7]] [[]] st
        (blocksEnd .client st.wire).finish.2.1 ((blocksEnd .client st.wire).world []) sent := by
  have hshared := (Relation.ReflTransGen.refl (r := Fuse.Step)
    (a := Fuse.init (halves { pingedBlocks.finish.1 with maskBuffer := [] } pingedBlocks.finish.2.1
      [.sendBinary [7]] [[]]) [Deflate.blocks])).tail
    (.whole rfl (.shared (i := .sender) rfl))
  simp only [Fuse.init, Race.init, encodeAll_seven (d := Deflate.blocks) rfl] at hshared
  have hrun := hshared
    |>.tail (.whole rfl (.lock (i := .sender) rfl rfl))
    |>.tail (.whole rfl (.write (i := .sender) [0xC2, 7] [] rfl))
    |>.tail (.whole rfl (.written (i := .sender) rfl))
    |>.tail (.whole rfl (.write (i := .sender) (compressedSeven.drop 2) [] rfl))
    |>.tail (.whole rfl (.written (i := .sender) rfl))
    |>.tail (.whole rfl (.unlock (i := .sender) rfl rfl))
    |>.tail (.whole rfl (.lock (i := .receiver) rfl rfl))
    |>.tail (.whole rfl (.write (i := .receiver) [0x8A] [0] rfl))
    |>.tail .breaks
  have hready : (blocksEnd .client (compressedSeven ++ [0x8A])).finish.2.1.ReadyWith Deflate.Only
      ((blocksEnd .client (compressedSeven ++ [0x8A])).world []) :=
    ⟨⟨_, rfl⟩, rfl, clean_nil.data, ⟨rfl, rfl⟩⟩
  have hdelivers : ∀ op ∈ [Op.sendBinary [7]], ∀ f ∈ op.frame, f.header.opcode.isControl = false →
      f.payload ≠ [] → Flate.lawfulBlocks.Delivers 15
        (blocksEnd .client (compressedSeven ++ [0x8A])).finish.2.1.config f.payload := by
    intro op hop f hf _ _
    obtain rfl := List.mem_singleton.mp hop
    cases hf
    exact Blocks.delivers_seven (by decide) (by decide)
  obtain ⟨sent, h⟩ := compressed_messages_arrive (b := pingedBlocks) Flate.lawfulBlocks rfl (by decide) []
    [.sendBinary [7]] [[]] hrun hready ⟨rfl, by decide⟩ rfl hdelivers (by decide)
  exact ⟨_, sent, rfl, rfl, h⟩

end Soketto
