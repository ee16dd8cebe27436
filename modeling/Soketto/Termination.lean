import Soketto.Base.Canonical
import Soketto.Closing

/-!
# The loops of a receiver end

With any reader of finitely many bytes, any writer and any extensions. A loop that is given more rounds
than there are bytes to come is over by then.

* `finishes_receiveLoop`, `finishes_receiveDataLoop`: by **`remaining_round`**, each round consumes a
  frame or is the last one.
* `LoopsEnd`: what makes the loops end; **`loopsEnd`**: it is so for every receiver.
-/

set_option autoImplicit false

namespace Soketto

open Incremental Chunked

namespace Receiver

variable {E : Type}

/-! ## Headers -/

theorem needMore_le {r : Receiver} {n : ℕ} (h : r.codec.decodeHeader.run r.buffer = .ok (.needMore n)) :
    r.buffer.length + n ≤ 14 := Codec.asksWithin_decodeHeader r.codec h

variable [Extension E]

/-! ## Messages -/

theorem finishes_receiveRound (r : Receiver) (l : Locals) :
    (r.receiveRound l : Fiber (List E) (Option Round)).Finishes := by
  intro es out es' h
  rcases receiveRound_cases h with ⟨-, rfl, -⟩ | ⟨-, round, rfl, -⟩
  · exact ⟨_, rfl⟩
  · exact ⟨round, rfl⟩

theorem finishes_receiveLoop (fuel : ℕ) {r : Receiver} (hf : r.remaining < fuel) (l : Locals) :
    (receiveLoop fuel r l : Fiber (List E) (Option (Received Incoming))).Finishes := by
  induction fuel generalizing r l with
  | zero => omega
  | succ fuel ih =>
    rw [receiveLoop]
    refine Fiber.finishes_bind fun es out es' hround => ?_
    obtain ⟨round, rfl⟩ := finishes_receiveRound r l es out es' hround
    cases round with
    | again r' l' =>
      have hdec := remaining_again hround
      exact ih (by omega) l'
    | ret result r' m => exact Fiber.finishes_some _

theorem remaining_receiveLoop (fuel : ℕ) {r r' : Receiver} {l : Locals} {i : Incoming}
    {m : List UInt8} {es es' : List E}
    (h : (receiveLoop fuel r l).Yields es (some ⟨.ok i, r', m⟩) es') :
    r'.remaining + 2 ≤ r.remaining := by
  induction fuel generalizing r l es with
  | zero => cases h.1
  | succ fuel ih =>
    rw [receiveLoop, Fiber.yields_bind] at h
    obtain ⟨out, s₁, hround, h⟩ := h
    obtain ⟨round, rfl⟩ := finishes_receiveRound r l es out s₁ hround
    cases round with
    | again r₁ l₁ =>
      have hdec := remaining_again hround
      have hrec := ih h
      omega
    | ret result r₁ m₁ =>
      cases h.1
      exact remaining_round hround rfl

theorem receiveLoop_of_closed (fuel : ℕ) {r : Receiver} (hc : r.isClosed = true) (l : Locals)
    {es es' : List E} {out : Option (Received Incoming)}
    (h : (receiveLoop (fuel + 1) r l).Yields es out es') :
    out = some ⟨.error .closed, r, l.message⟩ ∧ es' = es := by
  rw [receiveLoop, receiveRound, if_pos hc, Fiber.yields_bind] at h
  obtain ⟨round, s₁, ⟨rfl, rfl⟩, h⟩ := h
  exact ⟨h.1.symm, h.2.symm⟩

theorem finishes_receiveDataLoop (fuel : ℕ) {r : Receiver} (hf : r.remaining < fuel) (m : List UInt8) :
    (receiveDataLoop fuel r m : Fiber (List E) (Option (Received Data))).Finishes := by
  induction fuel generalizing r m with
  | zero => omega
  | succ fuel ih =>
    rw [receiveDataLoop]
    refine Fiber.finishes_bind fun es out es' hcall => ?_
    obtain ⟨received, rfl⟩ := finishes_receiveLoop _ (Nat.lt_succ_self _) _ es out es' hcall
    rcases received with ⟨e | i, r', m'⟩
    · exact Fiber.finishes_some _
    · have hdec := remaining_receiveLoop _ hcall
      cases i with
      | data d => exact Fiber.finishes_some _
      | pong p => exact ih (by omega) m'
      | closed reason => exact ih (by omega) m'

theorem receiveDataLoop_of_closed (fuel : ℕ) {r : Receiver} (hc : r.isClosed = true) (m : List UInt8)
    {es es' : List E} {out : Option (Received Data)}
    (h : (receiveDataLoop (fuel + 1) r m).Yields es out es') :
    out = some ⟨.error .closed, r, m⟩ ∧ es' = es := by
  rw [receiveDataLoop, Fiber.yields_bind] at h
  obtain ⟨received, s₁, hcall, h⟩ := h
  obtain ⟨rfl, rfl⟩ := receiveLoop_of_closed _ hc _ hcall
  exact ⟨h.1.symm, h.2.symm⟩

theorem onData_ne_closed {cfg : Config} {st st' : Feed E} {h : Header} {l : Locals}
    {reason : CloseReason} {m : List UInt8} :
    Feed.onData cfg st h l ≠ .ret (.ok (.closed reason)) st' m := by
  unfold Feed.onData Feed.finish
  dsimp only
  split
  · simp
  · simp
  · split <;> simp
  · split <;> simp
  · split <;> simp

theorem Takes.isClosed_of_closed {r r' : Receiver} {l : Locals} {es es' : List E} {round : Round}
    {reason : CloseReason} {m : List UInt8} (h : r.Takes l es round es')
    (hround : round = .ret (.ok (.closed reason)) r' m) : r'.isClosed = true := by
  cases h with
  | close _ _ hc =>
    cases hround
    exact hc
  | @data r₁ header x =>
    rcases hs : Feed.dataStep r.config es header (l.append header x) with ⟨st, l₁⟩ | ⟨result, st, m₁⟩
    · rw [hs] at hround
      cases hround
    · rw [hs] at hround
      cases hround
      exact absurd hs onData_ne_closed
  | _ => cases hround

theorem isClosed_of_closed (fuel : ℕ) {r r' : Receiver} {l : Locals} {reason : CloseReason}
    {m : List UInt8} {es es' : List E}
    (h : (receiveLoop fuel r l).Yields es (some ⟨.ok (.closed reason), r', m⟩) es') :
    r'.isClosed = true := by
  induction fuel generalizing r l es with
  | zero => cases h.1
  | succ fuel ih =>
    rw [receiveLoop, Fiber.yields_bind] at h
    obtain ⟨out, s₁, hround, h⟩ := h
    obtain ⟨round, rfl⟩ := finishes_receiveRound r l es out s₁ hround
    cases round with
    | again r₁ l₁ => exact ih h
    | ret result r₁ m₁ =>
      cases h.1
      rcases receiveRound_cases hround with ⟨-, hout, -⟩ | ⟨-, round, hout, htakes⟩
      · cases hout
      · cases hout
        exact htakes.isClosed_of_closed rfl

end Receiver

/-- The loops of the receiver end. Each round of the header's loop obtains a byte, and no byte beyond
the first 14 is asked for; each other round that goes on has consumed two bytes; and a round that begins
when the receiver is closed, as it is after it reported so, is the last one. -/
structure LoopsEnd (E : Type) [Extension E] (r : Receiver) : Prop where
  receiveHeader : ∀ fuel, (bytes r.reader).length < fuel →
    ∃ out, Receiver.receiveHeaderLoop fuel r = some out
  receive : ∀ fuel l, r.remaining < fuel →
    (r.receiveLoop fuel l : Fiber (List E) (Option (Received Incoming))).Finishes
  receiveData : ∀ fuel m, r.remaining < fuel →
    (r.receiveDataLoop fuel m : Fiber (List E) (Option (Received Data))).Finishes
  header : ∀ header off, r.codec.decodeHeader.run r.buffer = .ok (.done header off) → off ≤ 14
  headerRound : ∀ n, r.codec.decodeHeader.run r.buffer = .ok (.needMore n) →
    r.buffer.length + n ≤ 14 ∧ ∀ reader buffer,
      Soketto.read r.reader r.buffer n = (.ok (), reader, buffer) →
        r.buffer.length < buffer.length ∧ buffer.length ≤ r.buffer.length + n ∧
        buffer.length + (bytes reader).length = r.buffer.length + (bytes r.reader).length
  round : ∀ l r' l' (es es' : List E),
    (r.receiveRound l).Yields es (some (.again r' l')) es' → r'.remaining + 2 ≤ r.remaining
  call : ∀ m i r' m' (es es' : List E),
    (r.receive m).Yields es (some ⟨.ok i, r', m'⟩) es' → r'.remaining + 2 ≤ r.remaining
  reported : ∀ m reason r' m' (es es' : List E),
    (r.receive m).Yields es (some ⟨.ok (.closed reason), r', m'⟩) es' → r'.isClosed = true
  closed : r.isClosed = true → ∀ fuel m out (es es' : List E),
    (r.receiveDataLoop (fuel + 1) m).Yields es out es' →
      out = some ⟨.error .closed, r, m⟩ ∧ es' = es

/-- **The loops end**, for every receiver. -/
theorem loopsEnd (E : Type) [Extension E] (r : Receiver) : LoopsEnd E r where
  receiveHeader fuel hf := Receiver.receiveHeaderLoop_isSome fuel hf
  receive fuel l hf := Receiver.finishes_receiveLoop fuel hf l
  receiveData fuel m hf := Receiver.finishes_receiveDataLoop fuel hf m
  header _ _ hd := Codec.bounded_decodeHeader r.codec hd
  headerRound _ hn :=
    ⟨Receiver.needMore_le hn, fun _ _ hread => read_progress hread⟩
  round _ _ _ _ _ h := Receiver.remaining_again h
  call _ _ _ _ _ _ h := Receiver.remaining_receiveLoop _ h
  reported _ _ _ _ _ _ h := Receiver.isClosed_of_closed _ h
  closed hc fuel m _ _ _ h := Receiver.receiveDataLoop_of_closed fuel hc m h

end Soketto
