import Mathlib.Data.List.Basic
import Mathlib.Tactic.SplitIfs

/-!
# Byte sources that deliver in chunks

A source is the list of what the transport will deliver: chunks of data, and failures of single
reads. One read takes bytes from the first chunk only, so the caller never knows how many it gets;
a source with nothing left is at its end and stays there.

* `read`, `readExact`, `discard`: one read, a loop of reads for exactly `n` bytes, and a loop that
  throws up to `n` bytes away.
* `Clean s`: no read of `s` fails. On a clean source **`readExact_of_le`**, **`readExact_of_lt`**
  and **`bytes_discard`** speak about `bytes s` alone: the chunks do not matter.
* `failsNext`, `beforeFailure`, `skipFailure`: the first failure of a source.
-/

set_option autoImplicit false

namespace Chunked

/-- Failures of a read. -/
inductive IoError where
  | unexpectedEof
  | other (code : ℕ)
  deriving DecidableEq, Repr

/-- What one delivery of the transport brings. -/
inductive Event (τ : Type) where
  | data (bs : List τ)
  | error (e : IoError)
  deriving DecidableEq, Repr

/-- The deliveries still to come. -/
abbrev Source (τ : Type) : Type := List (Event τ)

variable {τ : Type}

/-- All bytes still to come. -/
def bytes : Source τ → List τ
  | [] => []
  | .data bs :: s => bs ++ bytes s
  | .error _ :: s => bytes s

/-- No read of `s` fails. -/
def Clean (s : Source τ) : Prop := ∀ e, Event.error e ∉ s

/-- One read of at most `n` bytes. An empty delivery is no delivery. -/
def read (n : ℕ) : Source τ → Except IoError (List τ) × Source τ
  | [] => (.ok [], [])
  | .error e :: s => (.error e, s)
  | .data [] :: s => read n s
  | .data (b :: bs) :: s => (.ok ((b :: bs).take n), .data ((b :: bs).drop n) :: s)

/-- Reads until `n` bytes are there: the bytes obtained, the failure that ended it early if there
was one, and what is left. -/
def readExact : ℕ → Source τ → List τ × Option IoError × Source τ
  | 0, s => ([], none, s)
  | _ + 1, [] => ([], some .unexpectedEof, [])
  | _ + 1, .error e :: s => ([], some e, s)
  | n + 1, .data bs :: s =>
    if n + 1 ≤ bs.length then (bs.take (n + 1), none, .data (bs.drop (n + 1)) :: s)
    else
      let (got, err, s') := readExact (n + 1 - bs.length) s
      (bs ++ got, err, s')

/-- Reads and throws away `n` bytes, or what there is before the end. -/
def discard : ℕ → Source τ → Option IoError × Source τ
  | 0, s => (none, s)
  | _ + 1, [] => (none, [])
  | _ + 1, .error e :: s => (some e, s)
  | n + 1, .data bs :: s =>
    if n + 1 ≤ bs.length then (none, .data (bs.drop (n + 1)) :: s)
    else discard (n + 1 - bs.length) s

@[simp] theorem bytes_nil : bytes ([] : Source τ) = [] := rfl

@[simp] theorem bytes_data (bs : List τ) (s : Source τ) : bytes (.data bs :: s) = bs ++ bytes s := rfl

theorem clean_nil : Clean ([] : Source τ) := fun _ h => by cases h

theorem Clean.tail {x : Event τ} {s : Source τ} (h : Clean (x :: s)) : Clean s :=
  fun e he => h e (List.mem_cons_of_mem _ he)

theorem Clean.not_error {e : IoError} {s : Source τ} (h : Clean (.error e :: s)) : False :=
  h e List.mem_cons_self

theorem Clean.data {bs : List τ} {s : Source τ} (h : Clean s) : Clean (.data bs :: s) := by
  intro e he
  rcases List.mem_cons.mp he with he | he
  · cases he
  · exact h e he

/-! ## One read -/

/-- **A read moves bytes from the source to the caller**: it returns the next bytes, at most `n` of
them, and none only at the end. -/
theorem read_ok {n : ℕ} {s s' : Source τ} {got : List τ} (h : read n s = (.ok got, s')) :
    bytes s = got ++ bytes s' ∧ got.length ≤ n ∧ (0 < n → got = [] → bytes s = []) := by
  fun_induction read n s with
  | case1 => cases h; exact ⟨rfl, Nat.zero_le _, fun _ _ => rfl⟩
  | case2 e s => cases h
  | case3 s ih => exact ih h
  | case4 b bs s =>
    cases h
    refine ⟨?_, List.length_take_le _ _, fun hn he => ?_⟩
    · rw [bytes_data, bytes_data, ← List.append_assoc, List.take_append_drop]
    · obtain ⟨m, rfl⟩ := Nat.exists_eq_succ_of_ne_zero (Nat.pos_iff_ne_zero.mp hn)
      rw [List.take_succ_cons] at he
      cases he

theorem Clean.read {n : ℕ} {s : Source τ} (h : Clean s) :
    ∃ got s', read n s = (.ok got, s') ∧ Clean s' := by
  fun_induction Chunked.read n s with
  | case1 => exact ⟨[], [], rfl, clean_nil⟩
  | case2 e s => exact h.not_error.elim
  | case3 s ih => exact ih h.tail
  | case4 b bs s => exact ⟨_, _, rfl, h.tail.data⟩

@[simp] theorem bytes_append (s t : Source τ) : bytes (s ++ t) = bytes s ++ bytes t := by
  induction s with
  | nil => rfl
  | cons x s ih =>
    cases x with
    | data bs => rw [List.cons_append, bytes_data, bytes_data, ih, List.append_assoc]
    | error e => exact ih

theorem Clean.append {s t : Source τ} (hs : Clean s) (ht : Clean t) : Clean (s ++ t) := by
  intro e he
  rcases List.mem_append.mp he with he | he
  · exact hs e he
  · exact ht e he

theorem read_append {n : ℕ} {s s' : Source τ} {got : List τ} (h : read n s = (.ok got, s'))
    (hgot : got ≠ []) (t : Source τ) : read n (s ++ t) = (.ok got, s' ++ t) := by
  fun_induction read n s with
  | case1 =>
    cases h
    exact absurd rfl hgot
  | case2 e s => cases h
  | case3 s ih => exact ih h
  | case4 b bs s =>
    cases h
    rfl

/-! ## Loops of reads -/

theorem readExact_of_le {n : ℕ} {s : Source τ} (hc : Clean s) (hn : n ≤ (bytes s).length) :
    ∃ s', readExact n s = ((bytes s).take n, none, s') ∧ bytes s' = (bytes s).drop n ∧ Clean s' := by
  fun_induction readExact n s with
  | case1 s => exact ⟨s, rfl, rfl, hc⟩
  | case2 n => simp at hn
  | case3 n e s => exact hc.not_error.elim
  | case4 n bs s hle =>
    refine ⟨.data (bs.drop (n + 1)) :: s, ?_, ?_, hc.tail.data⟩
    · rw [bytes_data, List.take_append_of_le_length hle]
    · rw [bytes_data, bytes_data, List.drop_append_of_le_length hle]
  | case5 n bs s hle got err s' hrec ih =>
    rw [bytes_data, List.length_append] at hn
    obtain ⟨s'', h₁, h₂, h₃⟩ := ih hc.tail (by omega)
    rw [hrec] at h₁
    obtain ⟨rfl, rfl, rfl⟩ : got = _ ∧ err = _ ∧ s' = _ := by simpa using h₁
    have ht : bs.take (n + 1) = bs := List.take_of_length_le (by omega)
    have hd : bs.drop (n + 1) = [] := List.drop_of_length_le (by omega)
    refine ⟨s', ?_, ?_, h₃⟩
    · rw [bytes_data, List.take_append, ht]
    · rw [h₂, bytes_data, List.drop_append, hd, List.nil_append]

theorem readExact_of_lt {n : ℕ} {s : Source τ} (hc : Clean s) (hn : (bytes s).length < n) :
    ∃ s', readExact n s = (bytes s, some .unexpectedEof, s') ∧ bytes s' = [] ∧ Clean s' := by
  fun_induction readExact n s with
  | case1 s => simp at hn
  | case2 n => exact ⟨[], rfl, rfl, clean_nil⟩
  | case3 n e s => exact hc.not_error.elim
  | case4 n bs s hle => rw [bytes_data, List.length_append] at hn; omega
  | case5 n bs s hle got err s' hrec ih =>
    rw [bytes_data, List.length_append] at hn
    obtain ⟨s'', h₁, h₂, h₃⟩ := ih hc.tail (by omega)
    rw [hrec] at h₁
    obtain ⟨rfl, rfl, rfl⟩ : got = _ ∧ err = _ ∧ s' = _ := by simpa using h₁
    exact ⟨_, by rw [bytes_data], h₂, h₃⟩

theorem readExact_none {n : ℕ} {s s' : Source τ} {got : List τ}
    (h : readExact n s = (got, none, s')) : bytes s = got ++ bytes s' ∧ got.length = n := by
  fun_induction readExact n s generalizing got s' with
  | case1 s =>
    cases h
    exact ⟨rfl, rfl⟩
  | case2 n => cases h
  | case3 n e s => cases h
  | case4 n bs s hle =>
    cases h
    refine ⟨?_, by rw [List.length_take]; omega⟩
    rw [bytes_data, bytes_data, ← List.append_assoc, List.take_append_drop]
  | case5 n bs s hle got' err s₁ hrec ih =>
    cases h
    obtain ⟨hbytes, hlen⟩ := ih hrec
    refine ⟨by rw [bytes_data, hbytes, List.append_assoc], ?_⟩
    rw [List.length_append, hlen]
    omega

theorem length_readExact_le (n : ℕ) (s : Source τ) : (readExact n s).1.length ≤ n := by
  fun_induction readExact n s with
  | case1 => exact Nat.zero_le _
  | case2 => exact Nat.zero_le _
  | case3 => exact Nat.zero_le _
  | case4 n bs s hle => rw [List.length_take]; omega
  | case5 n bs s hle got err s' hrec ih =>
    rw [hrec] at ih
    rw [List.length_append]
    dsimp only at ih
    omega

theorem bytes_discard {n : ℕ} {s : Source τ} (hc : Clean s) :
    ∃ s', discard n s = (none, s') ∧ bytes s' = (bytes s).drop n ∧ Clean s' := by
  fun_induction discard n s with
  | case1 s => exact ⟨s, rfl, rfl, hc⟩
  | case2 n => exact ⟨[], rfl, by simp, clean_nil⟩
  | case3 n e s => exact hc.not_error.elim
  | case4 n bs s hle =>
    exact ⟨_, rfl, by rw [bytes_data, bytes_data, List.drop_append_of_le_length hle], hc.tail.data⟩
  | case5 n bs s hle ih =>
    obtain ⟨s', h₁, h₂, h₃⟩ := ih hc.tail
    have hd : bs.drop (n + 1) = [] := List.drop_of_length_le (by omega)
    exact ⟨s', h₁, by rw [h₂, bytes_data, List.drop_append, hd, List.nil_append], h₃⟩

/-! ## The first failure -/

/-- The next delivery that is not empty is a failure. -/
def failsNext : Source τ → Bool
  | [] => false
  | .error _ :: _ => true
  | .data [] :: s => failsNext s
  | .data (_ :: _) :: _ => false

/-- The bytes that come before the first failure. -/
def beforeFailure : Source τ → List τ
  | [] => []
  | .error _ :: _ => []
  | .data bs :: s => bs ++ beforeFailure s

/-- The source without its first failure. -/
def skipFailure : Source τ → Source τ
  | [] => []
  | .error _ :: s => s
  | .data bs :: s => .data bs :: skipFailure s

theorem Clean.beforeFailure {s : Source τ} (h : Clean s) : beforeFailure s = bytes s := by
  induction s with
  | nil => rfl
  | cons x s ih =>
    cases x with
    | data bs => rw [Chunked.beforeFailure, ih h.tail, bytes_data]
    | error e => exact h.not_error.elim

theorem Clean.skipFailure {s : Source τ} (h : Clean s) : skipFailure s = s := by
  induction s with
  | nil => rfl
  | cons x s ih =>
    cases x with
    | data bs => rw [Chunked.skipFailure, ih h.tail]
    | error e => exact h.not_error.elim

/-- **A read fails just when a failure is next**, however many bytes were asked for. -/
theorem read_error_iff (n : ℕ) (s : Source τ) :
    (∃ e s', read n s = (.error e, s')) ↔ failsNext s = true := by
  fun_induction read n s with
  | case1 => exact ⟨fun ⟨_, _, h⟩ => (by cases h), fun h => (by cases h)⟩
  | case2 e s => exact ⟨fun _ => rfl, fun _ => ⟨e, s, rfl⟩⟩
  | case3 s ih => exact ih
  | case4 b bs s => exact ⟨fun ⟨_, _, h⟩ => (by cases h), fun h => (by cases h)⟩

theorem read_error {n : ℕ} {s s' : Source τ} {e : IoError} (h : read n s = (.error e, s')) :
    beforeFailure s = [] ∧ ¬Clean s ∧ bytes s' = bytes s := by
  fun_induction read n s with
  | case1 => cases h
  | case2 e s =>
    cases h
    exact ⟨rfl, fun hc => hc.not_error, rfl⟩
  | case3 s ih =>
    obtain ⟨hb, hc, hs⟩ := ih h
    exact ⟨hb, fun hclean => hc hclean.tail, hs⟩
  | case4 b bs s => cases h

theorem read_ok_failure {n : ℕ} {s s' : Source τ} {got : List τ} (h : read n s = (.ok got, s')) :
    beforeFailure s = got ++ beforeFailure s' ∧ (Clean s' ↔ Clean s) ∧
      (0 < n → got = [] → Clean s) := by
  have hcons : ∀ (bs : List τ) (s : Source τ), Clean (.data bs :: s) ↔ Clean s :=
    fun bs s => ⟨Clean.tail, Clean.data⟩
  fun_induction read n s with
  | case1 =>
    cases h
    exact ⟨rfl, Iff.rfl, fun _ _ => clean_nil⟩
  | case2 e s => cases h
  | case3 s ih =>
    obtain ⟨hb, hc, hn⟩ := ih h
    exact ⟨hb, hc.trans (hcons [] s).symm, fun h₁ h₂ => (hcons [] s).mpr (hn h₁ h₂)⟩
  | case4 b bs s =>
    cases h
    refine ⟨?_, ?_, fun hn hnil => ?_⟩
    · rw [beforeFailure, beforeFailure, ← List.append_assoc, List.take_append_drop]
    · rw [hcons, hcons]
    · obtain ⟨m, rfl⟩ := Nat.exists_eq_succ_of_ne_zero (Nat.pos_iff_ne_zero.mp hn)
      rw [List.take_succ_cons] at hnil
      cases hnil

end Chunked
