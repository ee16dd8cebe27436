import Soketto.Extension.Deflate

/-!
# Incremental compressors

What `Deflate.encode` relies on when it calls the compression library, and what it gets.

* `Flate.Lawful`: the behaviour that zlib documents. Each call consumes a prefix of the input and
  delivers what there is room for. A flush that leaves room is complete.
* `Deflate.call`: the next call of the compressor, as `encode` makes it; `Deflate.calls`: a number
  of them. `Deflate.Ends`: the test with which `encode` stops.
* **`exists_ends`**: the calls come to an end. `compressData_of_ends`: `encode` makes them up to the
  first state that passes the test.
-/

set_option autoImplicit false

namespace Soketto

/-- An incremental compressor for raw deflate data. The compressor keeps its input and its output,
whether a flush is complete, and how many bytes it may still deliver without more input or a
flush. -/
structure Flate.Lawful (F : Flate) where
  input : F.Compress → List UInt8
  output : F.Compress → List UInt8
  flushed : F.Compress → Bool
  pending : F.Compress → ℕ
  /-- The most bytes that a flush adds to what is pending. -/
  overhead : ℕ
  totalIn_eq (c : F.Compress) : F.totalIn c = (input c).length
  input_new {b : UInt8} (h : 9 ≤ b ∧ b ≤ 15) : input (F.newWithWindowBits b) = []
  output_new {b : UInt8} (h : 9 ≤ b ∧ b ≤ 15) : output (F.newWithWindowBits b) = []
  consumes {c c' : F.Compress} {data out : List UInt8} {spare : ℕ} {fl : FlushCompress}
    {r : Except BoxedError Status} (h : F.compressVec c data spare fl = (r, c', out)) :
    ∃ n, input c' = input c ++ data.take n
  delivers {c c' : F.Compress} {data out : List UInt8} {spare : ℕ} {fl : FlushCompress}
    {r : Except BoxedError Status} (h : F.compressVec c data spare fl = (r, c', out)) :
    output c' = output c ++ out ∧ out.length ≤ spare
  /-- There are no errors, and the stream does not end before it is finished. -/
  status {c c' : F.Compress} {data out : List UInt8} {spare : ℕ} {fl : FlushCompress}
    {r : Except BoxedError Status} (h : F.compressVec c data spare fl = (r, c', out)) :
    r = .ok .ok ∨ r = .ok .bufError
  /-- The status is `Ok` if some progress has been made. -/
  progress {c c' : F.Compress} {data out : List UInt8} {spare : ℕ}
    (h : F.compressVec c data spare .none = (.ok .ok, c', out)) : input c' ≠ input c ∨ out ≠ []
  /-- Progress is possible if there are input and room. -/
  room {c c' : F.Compress} {data out : List UInt8} {spare : ℕ} {r : Except BoxedError Status}
    (h : F.compressVec c data spare .none = (r, c', out)) (hd : data ≠ []) (hs : spare ≠ 0) :
    r = .ok .ok
  pending_none {c c' : F.Compress} {data out : List UInt8} {spare : ℕ}
    {r : Except BoxedError Status} (h : F.compressVec c data spare .none = (r, c', out))
    (hi : input c' = input c) : out.length + pending c' ≤ pending c
  pending_sync {c c' : F.Compress} {out : List UInt8} {spare : ℕ} {r : Except BoxedError Status}
    (h : F.compressVec c [] spare .sync = (r, c', out)) :
    out.length + pending c' ≤ pending c + overhead
  /-- A flush is complete if it leaves room. -/
  flushed_sync {c c' : F.Compress} {out : List UInt8} {spare : ℕ} {r : Except BoxedError Status}
    (h : F.compressVec c [] spare .sync = (r, c', out)) (hs : out.length < spare) :
    flushed c' = true
  /-- After a complete flush, all input can be inflated. -/
  flushed_spec {c : F.Compress} (h : flushed c = true) :
    emptyBlock <:+ output c ∧ F.inflate (output c) = (input c, none)
  /-- The bytes of an empty block are not a block of their own. -/
  inflate_emptyBlock : (F.inflate emptyBlock).1 = []

namespace Deflate

variable {F : Flate}

/-- The next call of the compressor. -/
def call (data : List UInt8) (s : F.Compress × Vec) : F.Compress × Vec :=
  if F.totalIn s.1 < data.length then
    match F.compressVec s.1 (data.drop (F.totalIn s.1)) s.2.spare .none with
    | (.ok .bufError, c, out) => (c, (s.2.fill out).reserve 4096)
    | (_, c, out) => (c, s.2.fill out)
  else
    match F.compressVec s.1 [] (s.2.reserve 5).spare .sync with
    | (_, c, out) => (c, (s.2.reserve 5).fill out)

/-- The compressor and the vector when `encode` begins. -/
def initial (self : Deflate F) (data : List UInt8) : F.Compress × Vec :=
  (F.newWithWindowBits self.ourMaxWindowBits, self.buffer.clear.reserve data.length)

/-- The compressor and the vector after `k` calls. -/
def calls (self : Deflate F) (data : List UInt8) (k : ℕ) : F.Compress × Vec :=
  (call data)^[k] (self.initial data)

/-- All input has been consumed. -/
def Consumed (data : List UInt8) (s : F.Compress × Vec) : Prop := data.length ≤ F.totalIn s.1

/-- The test with which `encode` stops. -/
def Ends (data : List UInt8) (s : F.Compress × Vec) : Prop :=
  Consumed data s ∧ emptyBlock <:+ s.2.bytes

end Deflate

/-! ## Vectors -/

namespace Vec

theorem bytes_fill {v : Vec} {bs : List UInt8} (h : bs.length ≤ v.spare) :
    (v.fill bs).bytes = v.bytes ++ bs := by
  simp only [fill, List.take_of_length_le h]

theorem spare_reserve (v : Vec) (n : ℕ) : n ≤ (v.reserve n).spare := by
  have := v.length_le
  simp only [spare, reserve]
  split_ifs <;> omega

theorem capacity_le_spare_reserve {v : Vec} (h : v.bytes.length = v.capacity) {n : ℕ} (hn : 0 < n) :
    v.capacity ≤ (v.reserve n).spare := by
  simp only [spare, reserve]
  rw [if_neg (by omega)]
  omega

end Vec

/-! ## One call -/

namespace Flate.Lawful

open Deflate

variable {F : Flate} (hF : F.Lawful) {data : List UInt8} {s : F.Compress × Vec}

/-- The input consumed is a part of the data, and the output delivered is in the vector. -/
structure Delivering (data : List UInt8) (s : F.Compress × Vec) : Prop where
  input : hF.input s.1 <+: data
  output : hF.output s.1 = s.2.bytes

variable {hF}

theorem Delivering.drop (h : hF.Delivering data s) :
    hF.input s.1 ++ data.drop (F.totalIn s.1) = data := by
  obtain ⟨t, ht⟩ := h.input
  rw [hF.totalIn_eq, ← ht, List.drop_left]

theorem Delivering.eq_of_consumed (h : hF.Delivering data s) (hc : Consumed data s) :
    hF.input s.1 = data := by
  refine h.input.eq_of_length_le ?_
  rw [← hF.totalIn_eq]
  exact hc

theorem Delivering.call (h : hF.Delivering data s) : hF.Delivering data (Deflate.call data s) := by
  unfold Deflate.call
  split_ifs with hlt
  · rcases hcall : F.compressVec s.1 (data.drop (F.totalIn s.1)) s.2.spare .none with ⟨r, c, out⟩
    obtain ⟨n, hn⟩ := hF.consumes hcall
    obtain ⟨hout, hlen⟩ := hF.delivers hcall
    have hin : hF.input c <+: data := by
      refine ⟨(data.drop (F.totalIn s.1)).drop n, ?_⟩
      rw [hn, List.append_assoc, List.take_append_drop, h.drop]
    have hbytes : hF.output c = (s.2.fill out).bytes := by
      rw [hout, h.output, Vec.bytes_fill hlen]
    rcases hF.status hcall with rfl | rfl
    · exact ⟨hin, hbytes⟩
    · exact ⟨hin, hbytes⟩
  · rcases hcall : F.compressVec s.1 [] (s.2.reserve 5).spare .sync with ⟨r, c, out⟩
    obtain ⟨n, hn⟩ := hF.consumes hcall
    obtain ⟨hout, hlen⟩ := hF.delivers hcall
    rw [List.take_nil, List.append_nil] at hn
    refine ⟨hn ▸ h.input, ?_⟩
    rw [hout, h.output, Vec.bytes_fill hlen]
    rfl

theorem Delivering.iterate (h : hF.Delivering data s) (k : ℕ) :
    hF.Delivering data ((Deflate.call data)^[k] s) := by
  induction k with
  | zero => exact h
  | succ k ih =>
    rw [Function.iterate_succ_apply']
    exact ih.call

theorem totalIn_call (hF : F.Lawful) (data : List UInt8) (s : F.Compress × Vec) :
    F.totalIn s.1 ≤ F.totalIn (Deflate.call data s).1 := by
  have hle : ∀ {input out : List UInt8} {spare fl r c},
      F.compressVec s.1 input spare fl = (r, c, out) → F.totalIn s.1 ≤ F.totalIn c := by
    intro input out spare fl r c hcall
    obtain ⟨n, hn⟩ := hF.consumes hcall
    rw [hF.totalIn_eq, hF.totalIn_eq, hn, List.length_append]
    exact Nat.le_add_right _ _
  unfold Deflate.call
  split_ifs
  · rcases hcall : F.compressVec s.1 (data.drop (F.totalIn s.1)) s.2.spare .none with ⟨r, c, out⟩
    rcases hF.status hcall with rfl | rfl
    · exact hle hcall
    · exact hle hcall
  · rcases hcall : F.compressVec s.1 [] (s.2.reserve 5).spare .sync with ⟨r, c, out⟩
    exact hle hcall

theorem consumed_iterate (hF : F.Lawful) (h : Consumed data s) (k : ℕ) :
    Consumed data ((Deflate.call data)^[k] s) := by
  induction k with
  | zero => exact h
  | succ k ih =>
    rw [Function.iterate_succ_apply']
    exact le_trans ih (hF.totalIn_call data _)

/-! ## The calls come to an end -/

/-- A call that is not the last one for the input consumes some of it, or there is less pending, or
the vector had no room and has some now. -/
theorem call_progress (hF : F.Lawful) (hlt : F.totalIn s.1 < data.length) :
    F.totalIn s.1 < F.totalIn (Deflate.call data s).1 ∨
      F.totalIn (Deflate.call data s).1 = F.totalIn s.1 ∧
        (hF.pending (Deflate.call data s).1 < hF.pending s.1 ∨
          hF.pending (Deflate.call data s).1 ≤ hF.pending s.1 ∧ s.2.spare = 0 ∧
            (Deflate.call data s).2.spare ≠ 0) := by
  have hne : data.drop (F.totalIn s.1) ≠ [] := by
    rw [Ne, List.drop_eq_nil_iff]
    omega
  unfold Deflate.call
  rw [if_pos hlt]
  rcases hcall : F.compressVec s.1 (data.drop (F.totalIn s.1)) s.2.spare .none with ⟨r, c, out⟩
  obtain ⟨n, hn⟩ := hF.consumes hcall
  by_cases hin : hF.input c = hF.input s.1
  · have htotal : F.totalIn c = F.totalIn s.1 := by rw [hF.totalIn_eq, hF.totalIn_eq, hin]
    have hpend := hF.pending_none hcall hin
    rcases hF.status hcall with rfl | rfl
    · refine Or.inr ⟨htotal, Or.inl ?_⟩
      have hout : out ≠ [] := (hF.progress hcall).resolve_left fun h => h hin
      have := List.length_pos_iff.mpr hout
      dsimp only
      omega
    · have hspare : s.2.spare = 0 := by
        by_contra hs
        cases hF.room hcall hne hs
      have hroom := (s.2.fill out).spare_reserve 4096
      refine Or.inr ⟨htotal, Or.inr ⟨?_, hspare, ?_⟩⟩
      · exact (Nat.le_add_left _ _).trans hpend
      · dsimp only
        omega
  · have hlt' : F.totalIn s.1 < F.totalIn c := by
      rw [hF.totalIn_eq, hF.totalIn_eq, hn, List.length_append]
      have : (data.drop (F.totalIn s.1)).take n ≠ [] := fun hnil => hin (by rw [hn, hnil]; simp)
      have := List.length_pos_iff.mpr this
      omega
    rcases hF.status hcall with rfl | rfl
    · exact Or.inl hlt'
    · exact Or.inl hlt'

theorem Delivering.exists_consumed {s : F.Compress × Vec} (h : hF.Delivering data s) :
    ∃ k, Consumed data ((Deflate.call data)^[k] s) := by
  by_cases hlt : F.totalIn s.1 < data.length
  · have hprog := hF.call_progress hlt
    obtain ⟨k, hk⟩ := h.call.exists_consumed
    exact ⟨k + 1, hk⟩
  · exact ⟨0, not_lt.mp hlt⟩
termination_by (data.length - F.totalIn s.1, hF.pending s.1, if s.2.spare = 0 then 1 else 0)
decreasing_by
  rcases hprog with hlt' | ⟨heq, hlt' | ⟨hle, h₀, h₁⟩⟩
  · exact Prod.Lex.left _ _ (by omega)
  · rw [heq]
    exact Prod.Lex.right _ (Prod.Lex.left _ _ hlt')
  · rw [heq, if_pos h₀, if_neg h₁]
    rcases hle.lt_or_eq with hlt' | heq'
    · exact Prod.Lex.right _ (Prod.Lex.left _ _ hlt')
    · rw [heq']
      exact Prod.Lex.right _ (Prod.Lex.right _ Nat.zero_lt_one)

/-- A flush is complete, or it fills the vector. -/
theorem flushed_or_full (hF : F.Lawful) (hc : Consumed data s) :
    hF.flushed (Deflate.call data s).1 = true ∨
      (Deflate.call data s).2.bytes.length = (Deflate.call data s).2.capacity ∧
        s.2.bytes.length + (s.2.reserve 5).spare ≤ (Deflate.call data s).2.capacity ∧
        hF.pending (Deflate.call data s).1 + (s.2.reserve 5).spare ≤
          hF.pending s.1 + hF.overhead := by
  unfold Deflate.call
  rw [if_neg (not_lt.mpr hc)]
  rcases hcall : F.compressVec s.1 [] (s.2.reserve 5).spare .sync with ⟨r, c, out⟩
  obtain ⟨-, hlen⟩ := hF.delivers hcall
  rcases hlen.lt_or_eq with hlt | heq
  · exact Or.inl (hF.flushed_sync hcall hlt)
  · have hpend := hF.pending_sync hcall
    have hcap := (s.2.reserve 5).length_le
    have hbytes := Vec.bytes_fill hlen
    refine Or.inr ⟨?_, ?_, by dsimp only; omega⟩
    · dsimp only
      rw [hbytes, List.length_append, heq]
      simp only [Vec.fill, Vec.spare]
      omega
    · have hsame : (s.2.reserve 5).bytes = s.2.bytes := rfl
      rw [hsame] at hcap
      simp only [Vec.fill, Vec.spare, hsame]
      omega

/-- From a full vector on, a flush is complete after some calls: each of them finds twice the room
of the one before. -/
theorem exists_flushed_of_full (hF : F.Lawful) {s : F.Compress × Vec} (hc : Consumed data s)
    (hfull : s.2.bytes.length = s.2.capacity) :
    ∃ k, hF.flushed ((Deflate.call data)^[k] s).1 = true := by
  have hspare := Vec.capacity_le_spare_reserve hfull (n := 5) (by omega)
  have hfive := s.2.spare_reserve 5
  rcases hF.flushed_or_full hc with hdone | ⟨hfull', hcap, hpend⟩
  · exact ⟨1, hdone⟩
  · obtain ⟨k, hk⟩ := exists_flushed_of_full hF (hF.consumed_iterate hc 1) hfull'
    exact ⟨k + 1, hk⟩
termination_by (hF.overhead + 1 - s.2.capacity) * (hF.overhead + 1) + hF.pending s.1
decreasing_by
  simp only [Function.iterate_one]
  rcases Nat.lt_or_ge hF.overhead s.2.capacity with hlt | hge
  · have h₀ : hF.overhead + 1 - s.2.capacity = 0 := by omega
    have h₁ : hF.overhead + 1 - (Deflate.call data s).2.capacity = 0 := by omega
    rw [h₀, h₁]
    omega
  · -- the product loses `overhead + 1`, more than what may be added to what is pending
    have hmul : (hF.overhead + 1 - (Deflate.call data s).2.capacity + 1) * (hF.overhead + 1) ≤
        (hF.overhead + 1 - s.2.capacity) * (hF.overhead + 1) :=
      Nat.mul_le_mul_right _ (by omega)
    rw [Nat.add_mul, Nat.one_mul] at hmul
    omega

/-- **The calls come to an end.** -/
theorem Delivering.exists_ends (h : hF.Delivering data s) :
    ∃ k, Ends data ((Deflate.call data)^[k] s) := by
  obtain ⟨k₁, hc⟩ := h.exists_consumed
  have hflush : ∃ k₂, hF.flushed ((Deflate.call data)^[k₂] ((Deflate.call data)^[k₁] s)).1 = true := by
    rcases hF.flushed_or_full hc with hdone | ⟨hfull, -⟩
    · exact ⟨1, hdone⟩
    · obtain ⟨k, hk⟩ := hF.exists_flushed_of_full (hF.consumed_iterate hc 1) hfull
      exact ⟨k + 1, hk⟩
  obtain ⟨k₂, hk₂⟩ := hflush
  refine ⟨k₂ + k₁, ?_⟩
  rw [Function.iterate_add_apply]
  refine ⟨hF.consumed_iterate hc k₂, ?_⟩
  rw [← ((h.iterate k₁).iterate k₂).output]
  exact (hF.flushed_spec hk₂).1

end Flate.Lawful

/-! ## The loops make the calls -/

namespace Deflate

variable {F : Flate} {data : List UInt8}

theorem compressInput_of_consumed (hF : F.Lawful) (k : ℕ) {s : F.Compress × Vec}
    (hlt : ∀ j < k, ¬Consumed data ((call data)^[j] s)) (hk : Consumed data ((call data)^[k] s))
    (fuel : ℕ) (hfuel : k < fuel) :
    compressInput fuel s.1 data s.2 = some (.ok (), (call data)^[k] s) := by
  induction k generalizing s fuel with
  | zero =>
    obtain ⟨fuel, rfl⟩ := Nat.exists_eq_add_of_lt hfuel
    have h₀ : ¬F.totalIn s.1 < data.length := not_lt.mpr hk
    rw [compressInput, if_neg h₀]
    rfl
  | succ k ih =>
    obtain ⟨fuel, rfl⟩ : ∃ n, fuel = n + 1 := ⟨fuel - 1, by omega⟩
    have h₀ : F.totalIn s.1 < data.length := not_le.mp (hlt 0 (Nat.succ_pos k))
    have hrec := ih (s := call data s) (fun j hj => hlt (j + 1) (by omega)) hk
      fuel (by omega)
    rw [Function.iterate_succ_apply, ← hrec, compressInput, if_pos h₀, call, if_pos h₀]
    dsimp only
    rcases hcall : F.compressVec s.1 (data.drop (F.totalIn s.1)) s.2.spare .none with ⟨r, c, out⟩
    rcases hF.status hcall with rfl | rfl
    · rfl
    · rfl

theorem appendEmptyBlock_of_isSuffix (hF : F.Lawful) (k : ℕ) {s : F.Compress × Vec}
    (hc : Consumed data s) (hlt : ∀ j < k, ¬emptyBlock <:+ ((call data)^[j] s).2.bytes)
    (hk : emptyBlock <:+ ((call data)^[k] s).2.bytes) (fuel : ℕ) (hfuel : k < fuel) :
    appendEmptyBlock fuel s.1 s.2 = some (.ok (), (call data)^[k] s) := by
  induction k generalizing s fuel with
  | zero =>
    obtain ⟨fuel, rfl⟩ := Nat.exists_eq_add_of_lt hfuel
    have h₀ : emptyBlock.isSuffixOf s.2.bytes = true := List.isSuffixOf_iff_suffix.mpr hk
    rw [appendEmptyBlock, if_pos h₀]
    rfl
  | succ k ih =>
    obtain ⟨fuel, rfl⟩ : ∃ n, fuel = n + 1 := ⟨fuel - 1, by omega⟩
    have h₀ : ¬emptyBlock.isSuffixOf s.2.bytes = true := fun h =>
      hlt 0 (Nat.succ_pos k) (List.isSuffixOf_iff_suffix.mp h)
    have hrec := ih (s := call data s) (hF.consumed_iterate hc 1)
      (fun j hj => hlt (j + 1) (by omega)) hk fuel (by omega)
    rw [Function.iterate_succ_apply, ← hrec, appendEmptyBlock, if_neg h₀, call,
      if_neg (not_lt.mpr hc)]
    rcases hcall : F.compressVec s.1 [] (s.2.reserve 5).spare .sync with ⟨r, c, out⟩
    rcases hF.status hcall with rfl | rfl
    · simp only [hcall]
    · simp only [hcall]

/-- The compressor and the vector after both loops. -/
def compressing (self : Deflate F) (data : List UInt8) :
    Option (Except BoxedError Unit × F.Compress × Vec) :=
  match compressInput F.rounds (self.initial data).1 data (self.initial data).2 with
  | some (.ok (), encoder, buffer) => appendEmptyBlock F.rounds encoder buffer
  | out => out

theorem compressData_eq (self : Deflate F) (data : List UInt8) :
    self.compressData data = (self.compressing data).map fun (r, _, buffer) => (r, buffer) := by
  unfold compressData compressing initial
  dsimp only
  rcases compressInput F.rounds (F.newWithWindowBits self.ourMaxWindowBits) data
    (self.buffer.clear.reserve data.length) with _ | ⟨e | u, c, v⟩ <;> rfl

/-- **The loops stop at the first state that passes the test.** -/
theorem compressing_of_ends (hF : F.Lawful) (self : Deflate F) {k : ℕ}
    (hlt : ∀ j < k, ¬Ends data (self.calls data j)) (hk : Ends data (self.calls data k))
    (hrounds : k < F.rounds) : self.compressing data = some (.ok (), self.calls data k) := by
  classical
  have hex : ∃ j, Consumed data (self.calls data j) := ⟨k, hk.1⟩
  have hle : Nat.find hex ≤ k := Nat.find_min' hex hk.1
  have hsplit : ∀ j, (call data)^[j] (self.calls data (Nat.find hex)) =
      self.calls data (j + Nat.find hex) := fun j => (Function.iterate_add_apply _ _ _ _).symm
  have hend : self.calls data k = (call data)^[k - Nat.find hex] (self.calls data (Nat.find hex)) := by
    rw [hsplit, Nat.sub_add_cancel hle]
  have h₁ := compressInput_of_consumed hF (Nat.find hex) (s := self.initial data)
    (fun j hj => Nat.find_min hex hj) (Nat.find_spec hex) F.rounds (hle.trans_lt hrounds)
  have h₂ := appendEmptyBlock_of_isSuffix hF (k - Nat.find hex) (Nat.find_spec hex)
    (fun j hj hs => ?_) (hend ▸ hk.2) F.rounds (by omega)
  · rw [compressing, h₁, hend]
    exact h₂
  · rw [hsplit] at hs
    refine hlt (j + Nat.find hex) (by omega) ⟨?_, hs⟩
    rw [← hsplit]
    exact hF.consumed_iterate (Nat.find_spec hex) j

end Deflate

end Soketto
