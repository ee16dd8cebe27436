import Soketto.Connection.Send
import Soketto.Feed.Rounds

/-!
# Accounting of `receiveData`

A call of `receiveData` is a sequence of rounds of `receive`, with any reader and writer, in which
a pong or a close frame begins another `receive` with the same vector.

* `Rounds`: the rounds of a call of `receiveData`. `Calm`: no pong comes while part of a message is
  in the vector.
* `Balanced`: the invariant. **`Balanced.takes`**: what one round preserves, `Rounds.balanced`: what
  all calm rounds preserve.
* **`receiveData_accounting`**: after calm rounds the vector has grown by no more than the maximum,
  and the length returned is that of the bytes appended.
-/

set_option autoImplicit false

namespace Soketto

open Incremental Chunked

/-- What the vector holds while a payload is read: the bytes from the buffer, then room for the
rest, then the payload. -/
def Receiver.payloadMoments (self : Receiver) (header : Header) (message : List UInt8) :
    List (List UInt8) :=
  let (n, _, buffered) := self.takeBuffered header.payloadLen message
  [buffered, buffered ++ List.replicate n 0, (self.readPayload header message).2.2]

/-- If a pong comes next, this call of `receive` has not appended anything yet. -/
def Calm (r : Receiver) (l : Locals) : Prop :=
  ∀ h, r.nextHeader = some h → h.opcode = .pong → l.message.length = l.messageLen

/-- The states before the rounds of a call of `receiveData` on `r₀` with the vector `m₀`: those in
the list have been passed. -/
inductive Rounds (E : Type) [Extension E] (r₀ : Receiver) (m₀ : List UInt8) :
    List (Receiver × Locals) → Receiver → Locals → Prop
  | start : Rounds E r₀ m₀ [] r₀ (.start m₀)
  | again {passed : List (Receiver × Locals)} {r r' : Receiver} {l l' : Locals} {es es' : List E}
      (h : Rounds E r₀ m₀ passed r l)
      (hr : (r.receiveRound l).Yields es (some (.again r' l')) es') :
      Rounds E r₀ m₀ ((r, l) :: passed) r' l'
  | next {passed : List (Receiver × Locals)} {r r' : Receiver} {l : Locals} {i : Incoming}
      {m' : List UInt8} {es es' : List E} (h : Rounds E r₀ m₀ passed r l)
      (hr : (r.receiveRound l).Yields es (some (.ret (.ok i) r' m')) es') (hi : ∀ d, i ≠ .data d) :
      Rounds E r₀ m₀ ((r, l) :: passed) r' (.start m')

/-- The vector has grown from `m₀` to `m` by at most `max`, as far as a `usize` can tell. -/
def Bounded (max : ℕ) (m₀ m : List UInt8) : Prop :=
  m₀.length ≤ m.length ∧ min (m.length - m₀.length) usizeMax ≤ max

theorem Bounded.length_le {max : ℕ} {m₀ m : List UInt8} (h : Bounded max m₀ m)
    (hm : m.length ≤ usizeMax) : m.length ≤ m₀.length + max := by
  have := h.2
  omega

/-- The length counted is that of the bytes appended since the call began, unless the connection is
closed. -/
structure Balanced (r₀ : Receiver) (m₀ : List UInt8) (r : Receiver) (l : Locals) : Prop where
  config : r.config = r₀.config
  bounded : Bounded r₀.maxMessageSize.toNat m₀ l.message
  counted : r.isClosed = false → l.messageLen = m₀.length ∧
    l.length = min (l.message.length - m₀.length) usizeMax

section

variable {E : Type} [Extension E] {cfg : Config} {es : List E} {h : Header} {l l' : Locals}

theorem dataStep_again (hx : cfg.hasExtensions = false) {st : Feed E}
    (hs : Feed.dataStep cfg es h l = .again st l') :
    l'.length = l.length ∧ l'.messageLen = l.messageLen ∧ l'.message = l.message := by
  unfold Feed.dataStep Feed.onData at hs
  cases hp : place l.firstFragmentOpcode h <;> rw [hp] at hs <;>
    simp only [Feed.decode, hx, Bool.not_false, if_true, Feed.finish] at hs <;> cases hs
  · exact ⟨rfl, rfl, rfl⟩
  · exact ⟨rfl, rfl, rfl⟩

theorem dataStep_ret (hx : cfg.hasExtensions = false) {st : Feed E}
    {result : Except Error Incoming} {m : List UInt8}
    (hs : Feed.dataStep cfg es h l = .ret result st m) :
    m = l.message ∧ ∀ i, result = .ok i →
      ∃ d, i = .data d ∧ d.len = wrappingSub l.message.length l.messageLen := by
  unfold Feed.dataStep Feed.onData at hs
  cases hp : place l.firstFragmentOpcode h <;> rw [hp] at hs <;>
    simp only [Feed.decode, hx, Bool.not_false, if_true, Feed.finish] at hs <;> cases hs
  · exact ⟨rfl, fun i hi => by cases hi⟩
  all_goals
    refine ⟨rfl, fun i hi => ?_⟩
    cases hi
    refine ⟨_, rfl, ?_⟩
    unfold Data.ofOpCode
    split_ifs <;> rfl

/-! ## Rounds keep the balance -/

/-- What a round leaves. -/
def Leaves (r₀ : Receiver) (m₀ : List UInt8) (r : Receiver) (l : Locals) : Round → Prop
  | .again r' l' => Balanced r₀ m₀ r' l'
  | .ret (.error _) _ m' => Bounded r₀.maxMessageSize.toNat m₀ m'
  | .ret (.ok (.data d)) _ m' =>
    Bounded r₀.maxMessageSize.toNat m₀ m' ∧ d.len = m'.length - m₀.length
  | .ret (.ok (.pong _)) r' m' =>
    r'.config = r₀.config ∧ m' = l.message ∧ ∃ h, r.nextHeader = some h ∧ h.opcode = .pong
  | .ret (.ok (.closed _)) r' m' => r'.config = r₀.config ∧ m' = l.message ∧ r'.isClosed = true

variable {r₀ r r' : Receiver} {m₀ m' : List UInt8} {es' : List E} {out : Round}

theorem Balanced.append (hb : Balanced r₀ m₀ r l) (ho : r.isClosed = false) {x : List UInt8}
    (hx : x.length = h.payloadLen)
    (hmax : saturatingAdd l.length h.payloadLen ≤ r.maxMessageSize.toNat) :
    Bounded r₀.maxMessageSize.toNat m₀ (l.message ++ x) ∧
      saturatingAdd l.length h.payloadLen =
        min ((l.message ++ x).length - m₀.length) usizeMax := by
  have hmax₀ : r.maxMessageSize = r₀.maxMessageSize := congrArg Config.maxMessageSize hb.config
  obtain ⟨-, hlen⟩ := hb.counted ho
  have hle := hb.bounded.1
  rw [hmax₀] at hmax
  unfold saturatingAdd at hmax ⊢
  unfold Bounded
  rw [List.length_append]
  omega

/-- **A round keeps the balance.** -/
theorem Balanced.takes (hx : r₀.hasExtensions = false) (hb : Balanced r₀ m₀ r l)
    (ho : r.isClosed = false) (ht : r.Takes l es out es') : Leaves r₀ m₀ r l out := by
  have hrx : r.config.hasExtensions = false := (congrArg Config.hasExtensions hb.config).trans hx
  cases ht with
  | failed => exact hb.bounded
  | broken hcfg _ he hh hlen hmax => exact (hb.append ho hlen hmax).1
  | control hcfg _ => exact ⟨hcfg.trans hb.config, hb.bounded, fun _ => hb.counted ho⟩
  | pong hcfg _ hh hoc => exact ⟨hcfg.trans hb.config, rfl, _, hh, hoc⟩
  | close hcfg _ hc => exact ⟨hcfg.trans hb.config, rfl, hc⟩
  | @data r' h x hcfg hh hctl hlen hmax =>
    obtain ⟨hbound, hcount⟩ := hb.append ho hlen hmax
    rcases hs : Feed.dataStep r.config es h (l.append h x) with ⟨st, l'⟩ | ⟨result, st, m'⟩
    · obtain ⟨h₁, h₂, h₃⟩ := dataStep_again hrx hs
      refine ⟨hcfg.trans hb.config, by rw [h₃]; exact hbound, fun _ => ?_⟩
      rw [h₁, h₂, h₃]
      exact ⟨(hb.counted ho).1, hcount⟩
    · obtain ⟨rfl, hok⟩ := dataStep_ret hrx hs
      rcases result with e | i
      · exact hbound
      · obtain ⟨d, rfl, hd⟩ := hok i rfl
        refine ⟨hbound, ?_⟩
        have hle := hbound.1
        rw [hd]
        simp only [Locals.append, (hb.counted ho).1]
        rw [wrappingSub, if_pos hle]

theorem Balanced.leaves (hx : r₀.hasExtensions = false) (hb : Balanced r₀ m₀ r l)
    (hr : (r.receiveRound l).Yields es (some out) es') : Leaves r₀ m₀ r l out := by
  rcases Receiver.receiveRound_cases hr with ⟨-, h, -⟩ | ⟨ho, round, h, ht⟩
  · cases h
    exact hb.bounded
  · cases h
    exact hb.takes hx ho ht

/-- **Calm rounds keep the balance.** -/
theorem Rounds.balanced (hx : r₀.hasExtensions = false) {passed : List (Receiver × Locals)}
    (h : Rounds E r₀ m₀ passed r l) (hcalm : ∀ s ∈ passed, Calm s.1 s.2) : Balanced r₀ m₀ r l := by
  induction h with
  | start =>
    exact ⟨rfl, ⟨le_refl _, by simp [Locals.start]⟩, fun _ => ⟨rfl, by simp [Locals.start]⟩⟩
  | again _ hr ih =>
    exact (ih fun s hs => hcalm s (List.mem_cons_of_mem _ hs)).leaves hx hr
  | @next passed r r' l i m' es es' _ hr hi ih =>
    have hb := ih fun s hs => hcalm s (List.mem_cons_of_mem _ hs)
    have hl := hb.leaves hx hr
    have ho : r.isClosed = false := by
      rcases Receiver.receiveRound_cases hr with ⟨-, h, -⟩ | ⟨ho, -⟩
      · cases h
      · exact ho
    cases i with
    | data d => exact absurd rfl (hi d)
    | pong p =>
      -- nothing has been appended, so the new call starts where the old one did
      obtain ⟨hcfg, rfl, hd, hh, hoc⟩ := hl
      have hlen : l.message.length = m₀.length :=
        (hcalm (r, l) List.mem_cons_self hd hh hoc).trans (hb.counted ho).1
      exact ⟨hcfg, hb.bounded, fun _ => ⟨hlen, by simp [Locals.start, hlen]⟩⟩
    | closed reason =>
      obtain ⟨hcfg, rfl, hc⟩ := hl
      exact ⟨hcfg, hb.bounded, fun h => by cases hc.symm.trans h⟩

theorem Balanced.moments (hb : Balanced r₀ m₀ r l) (ho : r.isClosed = false)
    (hmax : saturatingAdd l.length h.payloadLen ≤ r.maxMessageSize.toNat) {x : List UInt8}
    (hx : x ∈ r'.payloadMoments h l.message) : Bounded r₀.maxMessageSize.toNat m₀ x := by
  obtain ⟨n, r₁, y, ht, hn, -⟩ := r'.takeBuffered_spec h.payloadLen
  obtain ⟨res, r₂, z, hp, hz, -⟩ := r'.readPayload_cases h
  have hfull := (hb.append ho hz hmax).1
  have hlen : x.length ≤ (l.message ++ z).length ∧ l.message.length ≤ x.length := by
    simp only [Receiver.payloadMoments, ht, hp, List.mem_cons, List.not_mem_nil, or_false] at hx
    rcases hx with rfl | rfl | rfl
    all_goals
      simp only [List.length_append, List.length_replicate]
      omega
  have h₁ := hb.bounded.1
  have h₂ := hfull.2
  unfold Bounded
  omega

/-! ## Calls are rounds -/

theorem exists_rounds_receiveLoop {fuel : ℕ} {passed : List (Receiver × Locals)}
    (h : Rounds E r₀ m₀ passed r l) {w w' : World (List E)} {result : Except Error Incoming}
    (hr : (r.receiveLoop fuel l).run w = (some ⟨result, r', m'⟩, w')) :
    ∃ passed s k es es', Rounds E r₀ m₀ passed s k ∧
      (s.receiveRound k).Yields es (some (.ret result r' m')) (es' : List E) := by
  induction fuel generalizing passed r l w with
  | zero => cases hr
  | succ fuel ih =>
    have hy := Fiber.yields_run (r.receiveRound l) w
    rw [Receiver.receiveLoop] at hr
    simp only [Fiber.run_bind] at hr
    rcases hround : (r.receiveRound l).run w with ⟨_ | ⟨s, k⟩ | ⟨res, s, m⟩, w₁⟩ <;>
      rw [hround] at hr hy
    · cases hr
    · exact ih (h.again hy) hr
    · cases hr
      exact ⟨passed, r, l, _, _, h, hy⟩

theorem exists_rounds {fuel : ℕ} {passed : List (Receiver × Locals)} {m : List UInt8}
    (h : Rounds E r₀ m₀ passed r (.start m)) {w w' : World (List E)} {result : Except Error Data}
    (hr : (r.receiveDataLoop fuel m).run w = (some ⟨result, r', m'⟩, w')) :
    ∃ passed s k es es', Rounds E r₀ m₀ passed s k ∧
      (s.receiveRound k).Yields es (some (.ret (result.map .data) r' m')) (es' : List E) := by
  induction fuel generalizing passed r m w with
  | zero => cases hr
  | succ fuel ih =>
    rw [Receiver.receiveDataLoop] at hr
    simp only [Fiber.run_bind] at hr
    rcases hcall : (r.receive m).run w with ⟨_ | ⟨res, s, m₁⟩, w₁⟩ <;> rw [hcall] at hr
    · cases hr
    · obtain ⟨passed', s', k, es, es', hrounds, hret⟩ := exists_rounds_receiveLoop h hcall
      rcases res with e | d | p | reason
      · cases hr
        exact ⟨_, _, _, _, _, hrounds, hret⟩
      · cases hr
        exact ⟨_, _, _, _, _, hrounds, hret⟩
      · exact ih (hrounds.next hret fun d hd => by cases hd) hr
      · exact ih (hrounds.next hret fun d hd => by cases hd) hr

end

/-- **Accounting of `receiveData`.** A receiver without extensions, with any reader and writer, and
a call with the vector `m`. After rounds that were calm, and while a payload is read, the vector has
grown by at most the maximum (as its length is a `usize`). If a round after them returns, the vector
has grown so, too, and data that is returned is as long as the bytes appended since the call began.
What the call returns, one of its rounds returns. -/
theorem receiveData_accounting {E : Type} [Extension E] {r : Receiver}
    (hx : r.hasExtensions = false) (m : List UInt8) :
    (∀ passed s l, Rounds E r m passed s l → (∀ p ∈ passed, Calm p.1 p.2) →
      (l.message.length ≤ usizeMax → l.message.length ≤ m.length + r.maxMessageSize.toNat) ∧
      ∀ s₁ h, s.isClosed = false → saturatingAdd l.length h.payloadLen ≤ s.maxMessageSize.toNat →
        ∀ x ∈ Receiver.payloadMoments s₁ h l.message,
          x.length ≤ usizeMax → x.length ≤ m.length + r.maxMessageSize.toNat) ∧
    (∀ passed s l es es' result r' m', Rounds E r m passed s l → (∀ p ∈ passed, Calm p.1 p.2) →
      (s.receiveRound l).Yields es (some (.ret result r' m')) (es' : List E) →
      (m'.length ≤ usizeMax → m'.length ≤ m.length + r.maxMessageSize.toNat) ∧
      ∀ d, result = .ok (.data d) → d.len = m'.length - m.length) ∧
    ∀ (w w' : World (List E)) result r' m',
      (r.receiveData m).run w = (some ⟨result, r', m'⟩, w') →
      ∃ passed s l es es', Rounds E r m passed s l ∧
        (s.receiveRound l).Yields es (some (.ret (result.map .data) r' m')) (es' : List E) := by
  refine ⟨fun passed s l h hcalm => ?_, fun passed s l es es' result r' m' h hcalm hr => ?_,
    fun w w' result r' m' hr => exists_rounds .start hr⟩
  · have hb := h.balanced hx hcalm
    exact ⟨hb.bounded.length_le, fun s₁ hd ho hmax x hx => (hb.moments ho hmax hx).length_le⟩
  · have hb := h.balanced hx hcalm
    have hl := hb.leaves hx hr
    rcases result with e | d | p | reason
    · exact ⟨Bounded.length_le hl, fun d hd => by cases hd⟩
    · exact ⟨hl.1.length_le, fun d' hd => by cases hd; exact hl.2⟩
    · obtain ⟨-, rfl, -⟩ := hl
      exact ⟨hb.bounded.length_le, fun d hd => by cases hd⟩
    · obtain ⟨-, rfl, -⟩ := hl
      exact ⟨hb.bounded.length_le, fun d hd => by cases hd⟩

/-- A server that accepts messages of at most one byte. -/
def tinyReceiver (bs : List UInt8) : Builder Empty :=
  (Builder.new [.data bs] .server).setMaxMessageSize 1

/-- A pong before a text message of one byte. -/
theorem receiveData_accounting_calm :
    ∃ r₁ r', Rounds Empty (tinyReceiver [0x8A, 0, 0x81, 1, 65]).finish.2.1 [7]
        [((tinyReceiver [0x8A, 0, 0x81, 1, 65]).finish.2.1, .start [7])] r₁ (.start [7]) ∧
      (r₁.receiveRound (.start [7])).Yields ([] : List Empty)
        (some (.ret (.ok (.data (.text 1))) r' [7, 65])) [] ∧
      (Data.text 1).len = [7, 65].length - [7].length := by
  have hpong : ∃ r₁, ((tinyReceiver [0x8A, 0, 0x81, 1, 65]).finish.2.1.receiveRound
      (.start [7])).Yields ([] : List Empty) (some (.ret (.ok (.pong [])) r₁ [7])) [] ∧
      ∃ r', (r₁.receiveRound (.start [7])).Yields ([] : List Empty)
        (some (.ret (.ok (.data (.text 1))) r' [7, 65])) [] :=
    ⟨_, Fiber.yields_run _ ((tinyReceiver [0x8A, 0, 0x81, 1, 65]).world []), _,
      Fiber.yields_run _ ((tinyReceiver [0x8A, 0, 0x81, 1, 65]).world [])⟩
  obtain ⟨r₁, h₁, r', h₂⟩ := hpong
  have hrounds := Rounds.next .start h₁ fun d hd => by cases hd
  have hx : (tinyReceiver [0x8A, 0, 0x81, 1, 65]).finish.2.1.hasExtensions = false := rfl
  have hcalm : ∀ p ∈ [((tinyReceiver [0x8A, 0, 0x81, 1, 65]).finish.2.1, Locals.start [7])],
      Calm p.1 p.2 := by
    intro p hp
    obtain rfl := List.mem_singleton.mp hp
    exact fun _ _ _ => rfl
  obtain ⟨-, hret, -⟩ := receiveData_accounting (E := Empty) hx [7]
  exact ⟨r₁, r', hrounds, h₂, (hret _ _ _ _ _ _ _ _ hrounds hcalm h₂).2 _ rfl⟩

/-- A pong between a first fragment and another text message: two bytes are appended, where the
maximum is one, and one is returned. -/
theorem receiveData_unbalanced :
    ∃ r' w', ((tinyReceiver [0x01, 1, 65, 0x8A, 0, 0x81, 1, 66]).finish.2.1.receiveData []).run
        ((tinyReceiver [0x01, 1, 65, 0x8A, 0, 0x81, 1, 66]).world []) =
          (some ⟨.ok (.text 1), r', [65, 66]⟩, w') ∧
      (Data.text 1).len ≠ [65, 66].length - ([] : List UInt8).length ∧
      ¬[65, 66].length ≤ ([] : List UInt8).length +
        (tinyReceiver [0x01, 1, 65, 0x8A, 0, 0x81, 1, 66]).finish.2.1.maxMessageSize.toNat :=
  ⟨_, _, rfl, by decide, by decide⟩

end Soketto
