import Soketto.Extension.Compressor

/-!
# Compressing and inflating a message

`Deflate.encode` stops calling the compressor when the bytes it has got end in the bytes of an empty
block. Compressed data may have these bytes, too.

* `Flate.Lawful.Unambiguous`: the bytes delivered do not end so before the flush is complete.
* **`encode_decode_iff`**: `encode` always ends well; it gets all output of the compressor, and
  `decode` restores the message, just when this is so.
* `Flate.blocks`: a compressor that stores data in blocks, as zlib does with data that it cannot
  compress.
-/

set_option autoImplicit false

namespace Soketto

open Deflate

variable {F : Flate}

/-! ## Rounds -/

/-- The library with a number of rounds for the loops of `encode`. -/
def Flate.withRounds (F : Flate) (n : ℕ) : Flate := { F with rounds := n }

def Flate.Lawful.withRounds (hF : F.Lawful) (n : ℕ) : (F.withRounds n).Lawful where
  input := hF.input
  output := hF.output
  flushed := hF.flushed
  pending := hF.pending
  overhead := hF.overhead
  totalIn_eq := hF.totalIn_eq
  input_new := hF.input_new
  output_new := hF.output_new
  consumes := hF.consumes
  delivers := hF.delivers
  status := hF.status
  progress := hF.progress
  room := hF.room
  pending_none := hF.pending_none
  pending_sync := hF.pending_sync
  flushed_sync := hF.flushed_sync
  flushed_spec := hF.flushed_spec
  inflate_emptyBlock := hF.inflate_emptyBlock

/-- The extension with a number of rounds for the loops of `encode`. -/
def Deflate.withRounds (self : Deflate F) (n : ℕ) : Deflate (F.withRounds n) where
  mode := self.mode
  enabled := self.enabled
  buffer := self.buffer
  params := self.params
  ourMaxWindowBits := self.ourMaxWindowBits
  theirMaxWindowBits := self.theirMaxWindowBits
  awaitLastFragment := self.awaitLastFragment

theorem call_withRounds (data : List UInt8) (n : ℕ) (s : F.Compress × Vec) :
    call (F := F.withRounds n) data s = call (F := F) data s := by
  unfold call
  dsimp only [Flate.withRounds]
  rcases F.compressVec s.1 (data.drop (F.totalIn s.1)) s.2.spare .none with ⟨e | (_ | _ | _), c, out⟩
    <;> rfl

theorem calls_withRounds (self : Deflate F) (data : List UInt8) (n k : ℕ) :
    (self.withRounds n).calls data k = self.calls data k := by
  induction k with
  | zero => rfl
  | succ k ih =>
    rw [calls, Function.iterate_succ_apply', calls, Function.iterate_succ_apply']
    exact (congrArg _ ih).trans (call_withRounds data n _)

/-! ## Encoding -/

/-- **The bytes delivered are unambiguous**: after all input has been consumed, they end in the
bytes of an empty block only when the flush is complete. -/
def Flate.Lawful.Unambiguous (hF : F.Lawful) (self : Deflate F) (data : List UInt8) : Prop :=
  ∀ k, (∀ j < k, Consumed data (self.calls data j) → hF.flushed (self.calls data j).1 = false) →
    Ends data (self.calls data k) → hF.flushed (self.calls data k).1 = true

section

variable (hF : F.Lawful) {self : Deflate F} {data : List UInt8} {k : ℕ}

theorem delivering_initial (hb : 9 ≤ self.ourMaxWindowBits ∧ self.ourMaxWindowBits ≤ 15) :
    hF.Delivering data (self.initial data) where
  input := by
    rw [initial, hF.input_new hb]
    exact List.nil_prefix
  output := hF.output_new hb

theorem delivering_calls (hb : 9 ≤ self.ourMaxWindowBits ∧ self.ourMaxWindowBits ≤ 15) (k : ℕ) :
    hF.Delivering data (self.calls data k) :=
  (delivering_initial hF hb).iterate k

/-- In the state in which `encode` stops, the flush is complete just when the bytes delivered are
unambiguous. -/
theorem flushed_iff_unambiguous
    (hb : 9 ≤ self.ourMaxWindowBits ∧ self.ourMaxWindowBits ≤ 15)
    (hlt : ∀ j < k, ¬Ends data (self.calls data j)) (hk : Ends data (self.calls data k)) :
    hF.flushed (self.calls data k).1 = true ↔ hF.Unambiguous self data := by
  constructor
  · intro hf i hi hend
    rcases lt_trichotomy i k with hlt' | rfl | hgt
    · exact absurd hend (hlt i hlt')
    · exact hf
    · cases hf.symm.trans (hi k hgt hk.1)
  · refine fun hu => hu k (fun j hj hc => Bool.eq_false_iff.mpr fun hf => ?_) hk
    -- a complete flush would have ended the loop before
    refine hlt j hj ⟨hc, ?_⟩
    rw [← (delivering_calls hF hb j).output]
    exact (hF.flushed_spec hf).1

end

section

variable {self : Deflate F} {header : Header} {data : Storage} {c : F.Compress} {v : Vec}

theorem take_append_emptyBlock {bs : List UInt8} (h : emptyBlock <:+ bs) :
    bs.take (bs.length - 4) ++ emptyBlock = bs := by
  obtain ⟨t, rfl⟩ := h
  have hlen : (t ++ emptyBlock).length - 4 = t.length := by
    rw [List.length_append]
    rfl
  rw [hlen, List.take_left]

/-- `encode` takes the bytes of the empty block away. -/
theorem encode_of_compressing (hne : data.asRef ≠ [])
    (hoc : header.opcode = .text ∨ header.opcode = .binary)
    (h : self.compressing data.asRef = some (.ok (), c, v)) (hs : emptyBlock <:+ v.bytes) :
    ∃ enc, self.encode header data = some enc ∧ enc.result = .ok () ∧
      enc.header = { header with rsv1 := true, payloadLen := enc.data.asRef.length } ∧
      enc.data.asRef ++ emptyBlock = v.bytes := by
  have hdata : self.compressData data.asRef = some (.ok (), v) := by rw [compressData_eq, h]; rfl
  have hs' : ¬(!emptyBlock.isSuffixOf v.bytes) = true := by
    simpa using List.isSuffixOf_iff_suffix.mpr hs
  unfold encode
  rw [if_neg (by simpa using hne), if_neg (not_not.mpr hoc.symm), hdata]
  simp only [if_neg hs']
  exact ⟨_, rfl, rfl, rfl, take_append_emptyBlock hs⟩

theorem decode_of_inflate (d : Deflate F) (hoc : header.opcode = .text ∨ header.opcode = .binary)
    (hrsv : header.rsv1 = true) (hfin : header.fin = true) {x out : List UInt8} (hne : x ≠ [])
    (hx : F.inflate (x ++ emptyBlock) = (out, none)) :
    (d.decode header x).result = .ok () ∧ (d.decode header x).data = out := by
  unfold decode
  rw [if_neg (by simpa using hne), if_pos ⟨hoc.symm, hrsv⟩, if_neg (by simp [hfin]), inflateData,
    hx]
  exact ⟨rfl, rfl⟩

end

/-- **When a message survives.** With a lawful compression library, any window size, any buffer and
any payload of a text or binary frame that is not empty: if the loops are given enough rounds,
`encode` returns `Ok`, with RSV1 set. All output of the compressor has been delivered then, and
`decode` restores the payload, just when the bytes delivered are unambiguous. -/
theorem encode_decode_iff (hF : F.Lawful) (self : Deflate F)
    (hb : 9 ≤ self.ourMaxWindowBits ∧ self.ourMaxWindowBits ≤ 15) (header : Header)
    (hoc : header.opcode = .text ∨ header.opcode = .binary) (hfin : header.fin = true)
    (data : Storage) (hne : data.asRef ≠ []) :
    ∃ rounds, ∀ n, rounds ≤ n → ∃ c v enc,
      (self.withRounds n).compressing data.asRef = some (.ok (), c, v) ∧
      (self.withRounds n).encode header data = some enc ∧ enc.result = .ok () ∧
      enc.header = { header with rsv1 := true, payloadLen := enc.data.asRef.length } ∧
      enc.data.asRef ++ emptyBlock = v.bytes ∧
      ((hF.flushed c = true ∧ ∀ d : Deflate F,
          (d.decode enc.header enc.data.asRef).result = .ok () ∧
          (d.decode enc.header enc.data.asRef).data = data.asRef) ↔
        hF.Unambiguous self data.asRef) := by
  classical
  have hex : ∃ k, Ends data.asRef (self.calls data.asRef k) :=
    (delivering_initial hF hb).exists_ends
  have hk := Nat.find_spec hex
  have hlt : ∀ j < Nat.find hex, ¬Ends data.asRef (self.calls data.asRef j) :=
    fun j hj => Nat.find_min hex hj
  generalize Nat.find hex = k at hk hlt
  refine ⟨k + 1, fun n hn => ?_⟩
  have hcomp : (self.withRounds n).compressing data.asRef =
      some (.ok (), self.calls data.asRef k) := by
    simp only [← calls_withRounds self data.asRef n] at hlt hk ⊢
    exact compressing_of_ends (hF.withRounds n) (self.withRounds n) hlt hk hn
  obtain ⟨enc, henc, hres, hheader, hbytes⟩ := encode_of_compressing hne hoc hcomp hk.2
  replace hbytes : enc.data.asRef ++ emptyBlock = (self.calls data.asRef k).2.bytes := hbytes
  refine ⟨_, _, enc, hcomp, henc, hres, hheader, hbytes, ?_⟩
  rw [← flushed_iff_unambiguous hF hb hlt hk]
  refine ⟨fun h => h.1, fun hf => ⟨hf, fun d => ?_⟩⟩
  have hdel : hF.Delivering data.asRef (self.calls data.asRef k) := delivering_calls hF hb k
  have hinfl : F.inflate (enc.data.asRef ++ emptyBlock) = (data.asRef, none) := by
    rw [hbytes, ← hdel.output, (hF.flushed_spec hf).2, hdel.eq_of_consumed hk.1]
  refine decode_of_inflate d (by rw [hheader]; exact hoc) (by rw [hheader])
    (by rw [hheader]; exact hfin) (fun hnil => hne ?_) hinfl
  have hempty := hF.inflate_emptyBlock
  rw [hnil, List.nil_append] at hinfl
  rw [hinfl] at hempty
  exact hempty

/-! ## Stored blocks -/

/-- The bytes can be inflated, in any number of rounds that is large enough. -/
def Inflates (bs out : List UInt8) : Prop :=
  ∀ fuel, bs.length ≤ fuel → inflateStored fuel bs = (out, none)

theorem inflates_nil : Inflates [] [] := by
  intro fuel _
  cases fuel <;> rfl

theorem Inflates.storedBlock {bs out : List UInt8} (h : Inflates bs out) (data : List UInt8) :
    Inflates (storedBlock data ++ bs) (data.take 65535 ++ out) := by
  intro fuel hfuel
  have hlt : (data.take 65535).length < 65536 := by
    have := List.length_take_le 65535 data
    omega
  generalize hx : data.take 65535 = x at hlt ⊢
  have hblock : Soketto.storedBlock data = 0 :: UInt8.ofNat (x.length % 256) ::
      UInt8.ofNat (x.length / 256) :: (~~~UInt8.ofNat (x.length % 256)) ::
      (~~~UInt8.ofNat (x.length / 256)) :: x := by
    rw [Soketto.storedBlock, hx]
    rfl
  rw [hblock] at hfuel ⊢
  obtain ⟨fuel, rfl⟩ : ∃ n, fuel = n + 1 := ⟨fuel - 1, by simp at hfuel; omega⟩
  have hlen : (UInt8.ofNat (x.length % 256)).toNat + 256 * (UInt8.ofNat (x.length / 256)).toNat =
      x.length := by
    rw [UInt8.toNat_ofNat', UInt8.toNat_ofNat']
    omega
  have hrest := h fuel (by simp at hfuel; omega)
  simp only [List.cons_append, inflateStored, and_self, if_true, hlen, List.drop_left,
    List.take_left, hrest]

/-- Data in stored blocks. -/
def storedBlocks : ℕ → List UInt8 → List UInt8
  | n + 1, b :: bs => storedBlock (b :: bs) ++ storedBlocks n ((b :: bs).drop 65535)
  | _, _ => []

theorem Inflates.storedBlocks {bs out : List UInt8} (h : Inflates bs out) {n : ℕ}
    {data : List UInt8} (hn : data.length ≤ n) :
    Inflates (storedBlocks n data ++ bs) (data ++ out) := by
  induction n generalizing data with
  | zero =>
    obtain rfl := List.eq_nil_of_length_eq_zero (Nat.le_zero.mp hn)
    exact h
  | succ n ih =>
    cases data with
    | nil => exact h
    | cons b data =>
      have hdrop : ((b :: data).drop 65535).length ≤ n := by
        rw [List.length_drop]
        omega
      have hsplit := (ih hdrop).storedBlock (b :: data)
      rwa [← List.append_assoc, ← List.append_assoc, List.take_append_drop] at hsplit

/-- The blocks of some segments of data, with an empty block after each. -/
def generated (segments : List (List UInt8)) : List UInt8 :=
  segments.flatMap fun data => storedBlocks data.length data ++ storedBlock []

theorem inflates_generated (segments : List (List UInt8)) :
    Inflates (generated segments) segments.flatten := by
  induction segments with
  | nil => exact inflates_nil
  | cons data segments ih =>
    have h := (ih.storedBlock []).storedBlocks (le_refl data.length)
    rw [← List.append_assoc] at h
    exact h

theorem generated_append (segments segments' : List (List UInt8)) :
    generated (segments ++ segments') = generated segments ++ generated segments' :=
  List.flatMap_append

theorem isSuffix_generated {segments : List (List UInt8)} (h : segments ≠ []) :
    emptyBlock <:+ generated segments := by
  obtain ⟨segments, data, rfl⟩ := (List.eq_nil_or_concat' segments).resolve_left h
  refine ⟨generated segments ++ (storedBlocks data.length data ++ [0]), ?_⟩
  rw [generated_append]
  simp only [generated, List.flatMap_singleton, List.append_assoc]
  rfl

/-- A compressor that stores data: a segment of data for each flush, the data after that, and the
number of bytes delivered. -/
structure Blocks where
  segments : List (List UInt8)
  held : List UInt8
  delivered : ℕ
  delivered_le : delivered ≤ (generated segments).length

namespace Blocks

def new : Blocks := ⟨[], [], 0, Nat.zero_le _⟩

/-- The input and the output. -/
def input (c : Blocks) : List UInt8 := c.segments.flatten ++ c.held

def output (c : Blocks) : List UInt8 := (generated c.segments).take c.delivered

/-- Take more data. -/
def hold (c : Blocks) (data : List UInt8) : Blocks := { c with held := c.held ++ data }

/-- Make a segment of the data, unless there is none since the last flush. -/
def flush (c : Blocks) : Blocks :=
  if c.held = [] ∧ c.segments ≠ [] then c
  else
    { segments := c.segments ++ [c.held]
      held := []
      delivered := c.delivered
      delivered_le := by
        rw [generated_append, List.length_append]
        exact c.delivered_le.trans (Nat.le_add_right _ _) }

/-- The bytes to deliver, if there is room. -/
def ready (c : Blocks) (spare : ℕ) : List UInt8 :=
  ((generated c.segments).drop c.delivered).take spare

/-- Deliver what there is room for. -/
def deliver (c : Blocks) (spare : ℕ) : Blocks where
  segments := c.segments
  held := c.held
  delivered := c.delivered + (c.ready spare).length
  delivered_le := by
    have := c.delivered_le
    rw [ready, List.length_take, List.length_drop]
    omega

def compressVec (c : Blocks) (data : List UInt8) (spare : ℕ) :
    FlushCompress → Except BoxedError Status × Blocks × List UInt8
  | .none =>
    if spare = 0 ∨ data = [] then (.ok .bufError, c.deliver spare, c.ready spare)
    else (.ok .ok, (c.hold data).deliver spare, c.ready spare)
  | .sync => (.ok .ok, (c.hold data).flush.deliver spare, (c.hold data).flush.ready spare)

/-- A call without flush consumes all data if there is room, and else nothing. -/
theorem compressVec_none_cases {c c' : Blocks} {data out : List UInt8} {spare : ℕ}
    {r : Except BoxedError Status} (h : c.compressVec data spare .none = (r, c', out)) :
    out = c.ready spare ∧
      ((spare = 0 ∨ data = []) ∧ r = .ok .bufError ∧ c' = c.deliver spare ∨
        data ≠ [] ∧ r = .ok .ok ∧ c' = (c.hold data).deliver spare) := by
  change (if spare = 0 ∨ data = [] then (.ok .bufError, c.deliver spare, c.ready spare)
    else (.ok .ok, (c.hold data).deliver spare, c.ready spare)) = (r, c', out) at h
  split_ifs at h with hno <;> cases h
  · exact ⟨rfl, Or.inl ⟨hno, rfl, rfl⟩⟩
  · exact ⟨rfl, Or.inr ⟨fun hd => hno (Or.inr hd), rfl, rfl⟩⟩

theorem output_deliver (c : Blocks) (spare : ℕ) :
    (c.deliver spare).output = c.output ++ c.ready spare := by
  have htake : c.ready spare = ((generated c.segments).drop c.delivered).take (c.ready spare).length := by
    conv_lhs => rw [ready]
    rw [ready, List.length_take, List.take_eq_take_iff]
    omega
  conv_rhs => rw [htake]
  exact List.take_add

theorem output_flush (c : Blocks) : c.flush.output = c.output := by
  unfold flush
  split_ifs
  · rfl
  · simp only [output, generated_append, List.take_append_of_le_length c.delivered_le]

theorem input_flush (c : Blocks) : c.flush.input = c.input := by
  unfold flush
  split_ifs
  · rfl
  · simp [input]

theorem input_deliver_hold (c : Blocks) {data : List UInt8} (hd : data ≠ []) (spare : ℕ) :
    ((c.hold data).deliver spare).input ≠ c.input := by
  intro heq
  have hlen := congrArg List.length heq
  simp only [input, deliver, hold, List.length_append] at hlen
  exact hd (List.eq_nil_of_length_eq_zero (by omega))

/-- The number of bytes to deliver after a flush. -/
def pending (c : Blocks) : ℕ := (generated (c.segments ++ [c.held])).length - c.delivered

theorem pending_deliver (c : Blocks) (spare : ℕ) :
    (c.ready spare).length + (c.deliver spare).pending = c.pending := by
  have := c.delivered_le
  simp only [pending, deliver, generated_append, List.length_append]
  rw [ready, List.length_take, List.length_drop]
  omega

theorem pending_flush (c : Blocks) : c.flush.pending ≤ c.pending + 5 := by
  unfold flush
  split_ifs
  · exact Nat.le_add_right _ _
  · have hempty : (generated [[]]).length = 5 := rfl
    simp only [pending, generated_append, List.length_append, hempty]
    omega

/-- All blocks have been delivered. -/
def flushed (c : Blocks) : Bool :=
  c.held = [] ∧ c.segments ≠ [] ∧ c.delivered = (generated c.segments).length

theorem flushed_deliver {c : Blocks} {spare : ℕ} (h : (c.flush.ready spare).length < spare) :
    (c.flush.deliver spare).flushed = true := by
  have hlen : (c.flush.deliver spare).delivered = (generated c.flush.segments).length := by
    have := c.flush.delivered_le
    simp only [deliver]
    rw [ready, List.length_take, List.length_drop] at h ⊢
    omega
  have hsegments : c.flush.held = [] ∧ c.flush.segments ≠ [] := by
    unfold flush
    split_ifs with hc
    · exact hc
    · exact ⟨rfl, by simp⟩
  exact decide_eq_true ⟨hsegments.1, hsegments.2, hlen⟩

theorem flushed_spec {c : Blocks} (h : c.flushed = true) :
    emptyBlock <:+ c.output ∧ Flate.stored.inflate c.output = (c.input, none) := by
  obtain ⟨hheld, hne, hlen⟩ := of_decide_eq_true h
  have hout : c.output = generated c.segments := by rw [output, hlen, List.take_length]
  rw [hout, input, hheld, List.append_nil]
  exact ⟨isSuffix_generated hne, inflates_generated c.segments _ (le_refl _)⟩

end Blocks

/-- The compression library that stores data. It keeps the data until it is asked to flush. -/
def Flate.blocks : Flate where
  Compress := Blocks
  inflate := Flate.stored.inflate
  newWithWindowBits _ := .new
  totalIn c := c.input.length
  compressVec := Blocks.compressVec
  rounds := 16

/-- It is lawful. -/
def Flate.lawfulBlocks : Flate.blocks.Lawful where
  input := Blocks.input
  output := Blocks.output
  flushed := Blocks.flushed
  pending := Blocks.pending
  overhead := 5
  totalIn_eq _ := rfl
  input_new _ := rfl
  output_new _ := rfl
  consumes {c c' data out spare fl r} h := by
    cases fl with
    | none =>
      obtain ⟨rfl, ⟨-, rfl, rfl⟩ | ⟨-, rfl, rfl⟩⟩ := Blocks.compressVec_none_cases h
      · exact ⟨0, (List.append_nil _).symm⟩
      · exact ⟨data.length, by rw [List.take_length]; exact (List.append_assoc _ _ _).symm⟩
    | sync =>
      cases h
      refine ⟨data.length, ?_⟩
      have hflush := (c.hold data).input_flush
      rw [List.take_length]
      exact hflush.trans (List.append_assoc _ _ _).symm
  delivers {c c' data out spare fl r} h := by
    cases fl with
    | none =>
      obtain ⟨rfl, ⟨-, rfl, rfl⟩ | ⟨-, rfl, rfl⟩⟩ := Blocks.compressVec_none_cases h
      · exact ⟨c.output_deliver spare, List.length_take_le _ _⟩
      · exact ⟨(c.hold data).output_deliver spare, List.length_take_le _ _⟩
    | sync =>
      cases h
      refine ⟨?_, List.length_take_le _ _⟩
      rw [Blocks.output_deliver, Blocks.output_flush]
      rfl
  status {c c' data out spare fl r} h := by
    cases fl with
    | none =>
      obtain ⟨rfl, ⟨-, rfl, rfl⟩ | ⟨-, rfl, rfl⟩⟩ := Blocks.compressVec_none_cases h
      · exact Or.inr rfl
      · exact Or.inl rfl
    | sync =>
      cases h
      exact Or.inl rfl
  progress {c c' data out spare} h := by
    obtain ⟨rfl, ⟨-, hr, -⟩ | ⟨hd, -, rfl⟩⟩ := Blocks.compressVec_none_cases h
    · cases hr
    · exact Or.inl (Blocks.input_deliver_hold c hd spare)
  room {c c' data out spare r} h hd hs := by
    obtain ⟨rfl, ⟨hno, rfl, rfl⟩ | ⟨-, rfl, rfl⟩⟩ := Blocks.compressVec_none_cases h
    · exact absurd hno (not_or.mpr ⟨hs, hd⟩)
    · rfl
  pending_none {c c' data out spare r} h hi := by
    obtain ⟨rfl, ⟨-, rfl, rfl⟩ | ⟨hd, rfl, rfl⟩⟩ := Blocks.compressVec_none_cases h
    · exact (c.pending_deliver spare).le
    · exact absurd hi (Blocks.input_deliver_hold c hd spare)
  pending_sync {c c' out spare r} h := by
    cases h
    rw [Blocks.pending_deliver]
    have hflush := (c.hold []).pending_flush
    have hhold : (c.hold []).pending = c.pending := by
      simp only [Blocks.pending, Blocks.hold, List.append_nil]
    omega
  flushed_sync h hs := by
    cases h
    exact Blocks.flushed_deliver hs
  flushed_spec := Blocks.flushed_spec
  inflate_emptyBlock := rfl

/-- The extension of a server whose client asks for no parameter. -/
def Deflate.blocks : Deflate .blocks := (Deflate.new .server).configure [] |>.2

/-- Forty bytes that zlib cannot compress and stores. -/
def stored40 : List UInt8 := (List.range 40).map fun i => UInt8.ofNat (150 + i)

theorem unambiguous_stored40 : Flate.lawfulBlocks.Unambiguous Deflate.blocks stored40 := by
  intro k hk hend
  match k with
  | 0 => exact absurd hend.1 (by decide : ¬stored40.length ≤ 0)
  | 1 => exact absurd (List.isSuffixOf_iff_suffix.mpr hend.2) (by decide)
  | 2 => exact absurd (List.isSuffixOf_iff_suffix.mpr hend.2) (by decide)
  | 3 => rfl
  | k + 4 =>
    have h₃ : Flate.lawfulBlocks.flushed (Deflate.blocks.calls stored40 3).1 = true := rfl
    cases h₃.symm.trans (hk 3 (by omega) (by decide : stored40.length ≤ _))

/-- They are restored. -/
theorem encode_decode_iff_stored40 :
    ∃ rounds, ∀ n, rounds ≤ n → ∃ enc,
      (Deflate.blocks.withRounds n).encode (Header.new .binary) (.owned stored40) = some enc ∧
      enc.result = .ok () ∧ enc.header.rsv1 = true ∧
      (Deflate.blocks.decode enc.header enc.data.asRef).data = stored40 := by
  obtain ⟨rounds, h⟩ := encode_decode_iff Flate.lawfulBlocks Deflate.blocks (by decide)
    (Header.new .binary) (Or.inr rfl) rfl (.owned stored40) (by decide)
  refine ⟨rounds, fun n hn => ?_⟩
  obtain ⟨c, v, enc, -, henc, hres, hheader, -, hiff⟩ := h n hn
  exact ⟨enc, henc, hres, by rw [hheader], ((hiff.mpr unambiguous_stored40).2 _).2⟩

/-- Forty such bytes, four of which are those of an empty block. -/
def stored40Empty : List UInt8 := stored40.take 31 ++ emptyBlock ++ stored40.drop 35

/-- There is room for forty bytes, so that the first part of the block that is delivered ends in the
bytes of an empty block. The rest of it is lost, and the last five bytes of the message with it. -/
theorem not_encode_decode :
    ∃ c v enc, Deflate.blocks.compressing stored40Empty = some (.ok (), c, v) ∧
      Flate.lawfulBlocks.flushed c = false ∧
      Deflate.blocks.encode (Header.new .binary) (.owned stored40Empty) = some enc ∧
      enc.result = .ok () ∧
      (Deflate.blocks.decode enc.header enc.data.asRef).result = .ok () ∧
      (Deflate.blocks.decode enc.header enc.data.asRef).data = stored40Empty.take 35 ∧
      stored40Empty.take 35 ≠ stored40Empty :=
  ⟨_, _, _, rfl, rfl, rfl, rfl, rfl, rfl, by decide⟩

end Soketto
