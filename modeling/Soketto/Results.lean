import Soketto.Delivery
import Soketto.Progress

/-!
# The results of a sender are honest

A connection without extensions, whose writer may break at any time. What the sender returns for its
operations is compared with what a peer reads.

* **`wp_perform`**, **`wp_performAll`**: what operations leave. `Honest`: the first ones have succeeded
  and the others have failed; `Spoken`: the frames of the first ones and a part of the next one.
* `Outgoing.size`: the length of a frame; **`Spoken.eq_take`**: the frames on the wire are those of the
  operations that have succeeded, and perhaps of the one that has failed first.
* **`results_are_honest`**: the peer gets exactly their messages.
-/

set_option autoImplicit false

namespace Soketto

open BigEndian Chunked
open Fiber (View)

section Operation

variable {E : Type} {mode : Mode} {v v' : View} {s : Sender} {op : Op}

theorem Tried.tear {bs : List UInt8} {result : Except Error Unit} (h : Tried bs v v' result) :
    Tried bs v v'.torn result := by
  cases h with
  | whole hb hs => exact .whole hb hs
  | torn part hb hpart hnone hs => exact .torn part rfl hpart hnone hs

theorem wp_flushWriter (hv : v.held = none) :
    (flushWriter : Fiber (List E) (Except Error Unit)).Wp v fun _ v' =>
      v'.held = none ∧ v'.sections = v.sections ++ [[]] :=
  ⟨hv, nofun, fun _ => ⟨[], rfl, ⟨rfl, rfl⟩, rfl, rfl⟩⟩

theorem wp_closeWriter (hv : v.held = none) :
    (closeWriter : Fiber (List E) (Except Error Unit)).Wp v fun _ v' =>
      v'.held = none ∧ v'.sections = v.sections ++ [[]] :=
  ⟨hv, nofun, fun _ => ⟨[], rfl, ⟨rfl, rfl⟩, rfl, rfl⟩⟩

/-- What an operation with the given result has written in the sections `secs`. -/
inductive Op.Did (mode : Mode) (v v' : View) : Op → Except Error Unit → List UInt8 → Prop
  | idle {op : Op} {result : Except Error Unit} (h : op.frame = none) : Did mode v v' op result []
  | whole {op : Op} {result : Except Error Unit} {f : Outgoing} (mask : UInt32)
      (hf : op.frame = some f) (hb : v.broken = false) (hr : op ≠ .close → result = .ok ()) :
      Did mode v v' op result (f.bytes mode mask)
  | torn {op : Op} {f : Outgoing} (mask : UInt32) (part : List UInt8) (hf : op.frame = some f)
      (hb : v'.broken = true) (hpart : part <+: f.bytes mode mask)
      (hnone : v.broken = true → part = []) : Did mode v v' op (.error .closed) part

/-- A sender after an operation. -/
def Op.Leaves (s : Sender) (op : Op) (v : View) (out : Option Sent) (v' : View) : Prop :=
  v'.held = none ∧ ∃ sent secs, out = some sent ∧ sent.sender.mode = s.mode ∧
    sent.sender.hasExtensions = s.hasExtensions ∧ v'.sections = v.sections ++ secs ∧
    op.Did s.mode v v' sent.result secs.flatten

theorem wp_sender_write (hv : v.held = none) (header : Header) (data : Storage) :
    (s.write header data : Fiber (List E) Sent).Wp v fun out v' =>
      v'.held = none ∧ out.sender.mode = s.mode ∧ out.sender.hasExtensions = s.hasExtensions ∧
        ∃ mask, Tried (Outgoing.bytes s.mode mask ⟨header, data.asRef⟩) v v' out.result :=
  Fiber.wp_bind ((wp_write hv s.codec header data s.maskBuffer).mono fun _ _ h =>
    ⟨⟨h.1, rfl, rfl, h.2⟩, h.1, rfl, rfl, h.2.imp fun _ ht => ht.tear⟩)

theorem wp_send {f : Outgoing} {data : Storage} (hf : op.frame = some f) (hd : data.asRef = f.payload)
    (hv : v.held = none) :
    (do return some (← s.write f.header data) : Fiber (List E) (Option Sent)).Wp v (op.Leaves s v) := by
  have hleaves : ∀ (out : Sent) (v' : View), (v'.held = none ∧ out.sender.mode = s.mode ∧
      out.sender.hasExtensions = s.hasExtensions ∧
      ∃ mask, Tried (Outgoing.bytes s.mode mask ⟨f.header, data.asRef⟩) v v' out.result) →
      op.Leaves s v (some out) v' := by
    rintro out v' ⟨hheld, hmode, hext, mask, ht⟩
    rw [hd] at ht
    generalize hres : out.result = result at ht
    cases ht with
    | whole hb hs =>
      refine ⟨hheld, out, [f.bytes s.mode mask], rfl, hmode, hext, hs, ?_⟩
      rw [hres, List.flatten_singleton]
      exact .whole mask hf hb fun _ => rfl
    | torn part hb hpart hnone hs =>
      refine ⟨hheld, out, [part], rfl, hmode, hext, hs, ?_⟩
      rw [hres, List.flatten_singleton]
      exact .torn mask part hf hb hpart hnone
  exact Fiber.wp_bind ((wp_sender_write hv f.header data).mono fun out v' h =>
    ⟨hleaves out v' h, hleaves out v'.torn ⟨h.1, h.2.1, h.2.2.1, h.2.2.2.imp fun _ ht => ht.tear⟩⟩)

theorem wp_sender_close (hv : v.held = none) :
    (do return some (← s.close) : Fiber (List E) (Option Sent)).Wp v (Op.close.Leaves s v) := by
  refine Fiber.wp_bind (Fiber.wp_bind ((wp_sender_write hv _ _).mono ?_))
  rintro ⟨result, s'⟩ v₁ ⟨hheld, hmode, hext, mask, ht⟩
  rcases ht with ⟨hb, hs⟩ | ⟨part, hb, hpart, hnone, hs⟩
  · -- the frame is written, whatever becomes of the flush and the close
    have hdone : ∀ (v' : View) (result : Except Error Unit) (ss : List (List UInt8)),
        v'.held = none → v'.sections = v₁.sections ++ ss → ss.flatten = [] →
        Op.close.Leaves s v (some ⟨result, s'⟩) v' := by
      intro v' result ss hheld' hss hnil
      refine ⟨hheld', _, _ :: ss, rfl, hmode, hext, by rw [hss, hs, List.append_assoc]; rfl, ?_⟩
      rw [List.flatten_cons, hnil, List.append_nil]
      exact .whole mask rfl hb fun h => (h rfl).elim
    refine Fiber.wp_bind ((wp_flushWriter hheld).mono ?_)
    rintro (e | u) v₂ ⟨hheld₂, hs₂⟩
    · exact ⟨⟨hdone _ _ _ hheld₂ hs₂ rfl, hdone _ _ _ hheld₂ hs₂ rfl⟩,
        hdone _ _ _ hheld₂ hs₂ rfl, hdone _ _ _ hheld₂ hs₂ rfl⟩
    · refine Fiber.wp_bind ((wp_closeWriter hheld₂).mono ?_)
      rintro result v₃ ⟨hheld₃, hs₃⟩
      rw [hs₂, List.append_assoc] at hs₃
      exact ⟨⟨hdone _ _ _ hheld₃ hs₃ rfl, hdone _ _ _ hheld₃ hs₃ rfl⟩,
        hdone _ _ _ hheld₃ hs₃ rfl, hdone _ _ _ hheld₃ hs₃ rfl⟩
  · have hfail : ∀ v' : View, v'.held = none → v'.broken = true → v'.sections = v₁.sections →
        Op.close.Leaves s v (some ⟨.error .closed, s'⟩) v' := by
      intro v' hheld' hb' hs'
      refine ⟨hheld', _, [part], rfl, hmode, hext, hs'.trans hs, ?_⟩
      rw [List.flatten_singleton]
      exact .torn mask part rfl hb' hpart hnone
    exact ⟨⟨hfail v₁ hheld hb rfl, hfail v₁.torn hheld rfl rfl⟩,
      hfail v₁.torn hheld rfl rfl, hfail v₁.torn hheld rfl rfl⟩

variable [Extension E]

/-- **What an operation leaves** without extensions, whatever becomes of the sink. -/
theorem wp_perform (hx : s.hasExtensions = false) (hv : v.held = none) (op : Op) :
    (s.perform op : Fiber (List E) (Option Sent)).Wp v (op.Leaves s v) := by
  have hframe : ∀ {op : Op} {header data}, op.frame = some ⟨header, data.asRef⟩ →
      (s.sendFrame header data : Fiber (List E) (Option Sent)).Wp v (op.Leaves s v) := by
    intro op header data hf
    unfold Sender.sendFrame
    rw [hx]
    exact wp_send (f := ⟨header, data.asRef⟩) hf rfl hv
  cases op with
  | sendText data => exact hframe rfl
  | sendTextOwned data => exact hframe rfl
  | sendBinary data => exact hframe rfl
  | sendBinaryMut data => exact hframe rfl
  | sendPing data => exact wp_send (f := ⟨Header.new .ping, data.bytes⟩) rfl rfl hv
  | sendPong data => exact wp_send (f := ⟨Header.new .pong, data.bytes⟩) rfl rfl hv
  | flush =>
    refine Fiber.wp_bind ((wp_flushWriter hv).mono fun result v' h => ?_)
    exact ⟨⟨h.1, _, _, rfl, rfl, rfl, h.2, .idle rfl⟩, h.1, _, _, rfl, rfl, rfl, h.2, .idle rfl⟩
  | close => exact wp_sender_close hv

/-- The results of operations of which the first `k` have written their frames. -/
structure Honest (ops : List Op) (results : List (Except Error Unit)) (k : ℕ) : Prop where
  length : results.length = ops.length
  /-- The first ones have succeeded, but a close may fail after its frame is written. -/
  whole : ∀ x ∈ (ops.zip results).take k, x.1.frame ≠ none → x.1 ≠ .close → x.2 = .ok ()
  /-- The others have failed. -/
  failed : ∀ x ∈ (ops.zip results).drop k, x.1.frame ≠ none → x.2 = .error .closed

/-- The bytes that a sender has written: the frames of its first operations, and a part of the next
one. -/
def Spoken (mode : Mode) (ops : List Op) (k : ℕ) (bs : List UInt8) : Prop :=
  ∃ masks part, bs = Outgoing.encode mode masks ((ops.take k).filterMap Op.frame) ++ part ∧
    (part = [] ∨ ∃ op f mask, ops[k]? = some op ∧ op.frame = some f ∧ part <+: f.bytes mode mask)

theorem Honest.cons {ops : List Op} {results : List (Except Error Unit)} {k : ℕ}
    {result : Except Error Unit} (h : Honest ops results k)
    (hr : op.frame ≠ none → op ≠ .close → result = .ok ()) :
    Honest (op :: ops) (result :: results) (k + 1) where
  length := congrArg (· + 1) h.length
  whole := by
    intro x hx
    rcases List.mem_cons.mp hx with rfl | hx
    · exact hr
    · exact h.whole x hx
  failed := h.failed

theorem Spoken.idle {ops : List Op} {k : ℕ} {bs : List UInt8} (h : Spoken mode ops k bs)
    (hf : op.frame = none) : Spoken mode (op :: ops) (k + 1) ([] ++ bs) := by
  obtain ⟨masks, part, hbs, hpart⟩ := h
  refine ⟨masks, part, ?_, hpart⟩
  rw [List.take_succ_cons, List.filterMap_cons_none hf]
  exact hbs

theorem Spoken.cons {ops : List Op} {k : ℕ} {bs : List UInt8} {f : Outgoing}
    (h : Spoken mode ops k bs) (mask : UInt32) (hf : op.frame = some f) :
    Spoken mode (op :: ops) (k + 1) (f.bytes mode mask ++ bs) := by
  obtain ⟨masks, part, hbs, hpart⟩ := h
  refine ⟨mask :: masks, part, ?_, hpart⟩
  rw [List.take_succ_cons, List.filterMap_cons_some hf, Outgoing.encode, List.append_assoc, hbs]
  rfl

/-- **What operations leave** without extensions, whatever becomes of the sink. -/
theorem wp_performAll (hx : s.hasExtensions = false) (hv : v.held = none) (ops : List Op) :
    (s.performAll ops : Fiber (List E) _).Wp v fun out v' =>
      v'.held = none ∧ ∃ results s' secs k, out = some (results, s') ∧
        v'.sections = v.sections ++ secs ∧ Honest ops results k ∧ Spoken s.mode ops k secs.flatten ∧
        (v.broken = true → secs.flatten = [] ∧
          ∀ x ∈ ops.zip results, x.1.frame ≠ none → x.2 = .error .closed) := by
  induction ops generalizing s v with
  | nil =>
    have h : Spoken s.mode [] 0 [] := ⟨[], [], rfl, .inl rfl⟩
    have hh : Honest [] [] 0 := ⟨rfl, nofun, nofun⟩
    exact ⟨⟨hv, [], s, [], 0, rfl, (List.append_nil _).symm, hh, h, fun _ => ⟨rfl, nofun⟩⟩,
      hv, [], s, [], 0, rfl, (List.append_nil _).symm, hh, h, fun _ => ⟨rfl, nofun⟩⟩
  | cons op ops ih =>
    refine Fiber.wp_bind ((wp_perform hx hv op).keeps_broken.mono ?_)
    rintro _ v₁ ⟨⟨hheld, ⟨result, s₁⟩, secs, rfl, hmode, hext, hs, hdid⟩, hmono⟩
    refine Fiber.wp_bind ((ih (hext.trans hx) hheld).mono ?_)
    rintro _ v₂ ⟨hheld₂, results, s₂, secs₂, k, rfl, hs₂, hh, hsp, hbr⟩
    rw [hs, List.append_assoc] at hs₂
    suffices hk : ∃ k', Honest (op :: ops) (result :: results) k' ∧
        Spoken s.mode (op :: ops) k' (secs ++ secs₂).flatten ∧
        (v.broken = true → (secs ++ secs₂).flatten = [] ∧
          ∀ x ∈ (op :: ops).zip (result :: results), x.1.frame ≠ none → x.2 = .error .closed) by
      obtain ⟨k', hk⟩ := hk
      exact ⟨⟨hheld₂, _, _, _, k', rfl, hs₂, hk⟩, hheld₂, _, _, _, k', rfl, hs₂, hk⟩
    rw [show s₁.mode = s.mode from hmode] at hsp
    rw [List.flatten_append]
    generalize secs.flatten = bs at hdid
    replace hdid : op.Did s.mode v v₁ result bs := hdid
    cases hdid with
    | idle hf =>
      refine ⟨k + 1, hh.cons (fun hne => (hne hf).elim), hsp.idle hf, fun hb => ?_⟩
      obtain ⟨hnil, herr⟩ := hbr (hmono hb)
      refine ⟨by rw [hnil]; rfl, fun x hx => ?_⟩
      rcases List.mem_cons.mp hx with rfl | hx
      · exact fun hne => (hne hf).elim
      · exact herr x hx
    | whole mask hf hb hr =>
      refine ⟨k + 1, hh.cons fun _ => hr, hsp.cons mask hf, fun hb' => ?_⟩
      rw [hb] at hb'
      cases hb'
    | torn mask part hf hb hpart hnone =>
      obtain ⟨hnil, herr⟩ := hbr hb
      have hall : ∀ x ∈ (op :: ops).zip (.error .closed :: results), x.1.frame ≠ none →
          x.2 = .error .closed := by
        intro x hx
        rcases List.mem_cons.mp hx with rfl | hx
        · exact fun _ => rfl
        · exact herr x hx
      rw [hnil, List.append_nil]
      exact ⟨0, ⟨congrArg (· + 1) hh.length, nofun, hall⟩,
        ⟨[], bs, rfl, .inr ⟨op, _, mask, rfl, hf, hpart⟩⟩, fun hb' => ⟨hnone hb', hall⟩⟩

end Operation

/-! ## What a peer gets of it -/

/-- The number of bytes of a frame on the wire. -/
def Outgoing.size (mode : Mode) (f : Outgoing) : ℕ := (f.bytes mode 0).length

theorem Outgoing.length_bytes (mode : Mode) (mask : UInt32) (f : Outgoing) :
    (f.bytes mode mask).length = f.size mode := by
  cases mode with
  | client =>
    simp [Outgoing.size, Outgoing.bytes, Outgoing.sealed, Mode.isClient, Codec.headerBytes,
      Codec.maskBytes, Codec.lenBytes, Codec.maskBit]
  | server => rfl

theorem Outgoing.length_encode (mode : Mode) (masks : List UInt32) (fs : List Outgoing) :
    (Outgoing.encode mode masks fs).length = (fs.map (Outgoing.size mode)).sum := by
  induction fs generalizing masks with
  | nil => rfl
  | cons f fs ih =>
    rw [Outgoing.encode, List.length_append, ih, Outgoing.length_bytes, List.map_cons, List.sum_cons]

section Lists

variable {α : Type} {F A B : List α}

theorem next_unique {a b : α} {T : List α} (ha : A ++ [a] <+: F) (hb : A ++ b :: T <+: F) : a = b := by
  obtain ⟨x, hx⟩ := ha
  obtain ⟨y, hy⟩ := hb
  have h := hx.trans hy.symm
  simp only [List.append_assoc, List.append_cancel_left_eq, List.cons_append] at h
  exact (List.cons.inj h).1

theorem eq_or_eq_concat {w : α → ℕ} (hw : ∀ a, 0 < w a) (hA : A <+: F) (hB : B <+: F) {m n : ℕ}
    (hm : m = 0 ∨ ∃ a, A ++ [a] <+: F ∧ m ≤ w a) (hn : n = 0 ∨ ∃ b, B ++ [b] <+: F ∧ n < w b)
    (h : (A.map w).sum + m = (B.map w).sum + n) :
    B = A ∨ 0 < m ∧ ∃ a, A ++ [a] <+: F ∧ B = A ++ [a] := by
  rcases List.prefix_or_prefix_of_prefix hA hB with ⟨T, rfl⟩ | ⟨T, rfl⟩
  · cases T with
    | nil => exact .inl (List.append_nil A)
    | cons a T =>
      simp only [List.map_append, List.map_cons, List.sum_append, List.sum_cons] at h
      have ha := hw a
      rcases hm with rfl | ⟨a', ha', hle⟩
      · omega
      · obtain rfl := next_unique ha' hB
        cases T with
        | nil => exact .inr ⟨by omega, a', ha', rfl⟩
        | cons b T =>
          have hb := hw b
          rw [List.map_cons, List.sum_cons] at h
          omega
  · cases T with
    | nil => exact .inl (List.append_nil B).symm
    | cons b T =>
      simp only [List.map_append, List.map_cons, List.sum_append, List.sum_cons] at h
      have hb := hw b
      rcases hn with rfl | ⟨b', hb', hlt⟩
      · omega
      · obtain rfl := next_unique hb' hA
        omega

end Lists

theorem Outgoing.size_pos (mode : Mode) (f : Outgoing) : 0 < f.size mode :=
  List.length_pos_iff.mpr (f.bytes_ne_nil mode 0)

theorem filterMap_take_succ {ops : List Op} {k : ℕ} {op : Op} {f : Outgoing} (hop : ops[k]? = some op)
    (hf : op.frame = some f) :
    (ops.take (k + 1)).filterMap Op.frame = (ops.take k).filterMap Op.frame ++ [f] := by
  rw [List.take_add_one, hop, List.filterMap_append]
  simp [hf]

/-- **Two accounts of what a sender has written** agree, but for the operation that has failed first. -/
theorem Spoken.eq_take {mode : Mode} {ops : List Op} {k : ℕ} {bs : List UInt8} {fs gs : List Outgoing}
    (h : Spoken mode ops k bs) (hgs : gs <+: ops.filterMap Op.frame)
    (hfs : fs <+: ops.filterMap Op.frame) (hbegun : Begun mode fs gs bs) :
    ∃ j, (j = k ∨ j = k + 1) ∧ gs = (ops.take j).filterMap Op.frame := by
  obtain ⟨masks, part, hbs, hpart⟩ := h
  obtain ⟨masks', rest, hbs', hrest⟩ := hbegun
  have hlen := congrArg List.length (hbs.symm.trans hbs')
  rw [List.length_append, List.length_append, Outgoing.length_encode, Outgoing.length_encode] at hlen
  have hsucc : ∀ {op f}, ops[k]? = some op → op.frame = some f →
      (ops.take k).filterMap Op.frame ++ [f] <+: ops.filterMap Op.frame := fun hop hf => by
    rw [← filterMap_take_succ hop hf]
    exact (List.take_prefix _ _).filterMap _
  have hcases := eq_or_eq_concat (Outgoing.size_pos mode) ((List.take_prefix k ops).filterMap Op.frame)
    hgs ?_ ?_ hlen
  · rcases hcases with rfl | ⟨hpos, f, hf, rfl⟩
    · exact ⟨k, .inl rfl, rfl⟩
    · rcases hpart with rfl | ⟨op, g, mask, hop, hg, -⟩
      · cases hpos
      · obtain rfl := next_unique hf (hsucc hop hg)
        exact ⟨k + 1, .inr rfl, (filterMap_take_succ hop hg).symm⟩
  · refine hpart.imp (fun h => by rw [h]; rfl) ?_
    rintro ⟨op, f, mask, hop, hf, hle⟩
    exact ⟨f, hsucc hop hf, by rw [← f.length_bytes mode mask]; exact hle.length_le⟩
  · refine hrest.imp (fun h => by rw [h]; rfl) ?_
    rintro ⟨g, hg, mask, more, hmore, hbytes⟩
    refine ⟨g, hg.trans hfs, ?_⟩
    rw [← g.length_bytes mode mask, hbytes, List.length_append]
    have := List.length_pos_iff.mpr hmore
    omega

/-- What the halves leave: the sender its results, and what it has written. -/
def Half.Left (mode : Mode) (ops : List Op) : (i : Half) → i.Output → View → Prop
  | .sender, out, v => v.held = none ∧ ∃ results s k, out = some (results, s) ∧
    Honest ops results k ∧ Spoken mode ops k v.sections.flatten
  | .receiver, _, v => v.held = none

theorem wp_halves {E : Type} [Extension E] {s : Sender} (hx : s.hasExtensions = false) (r : Receiver)
    (ops : List Op) (ms : List (List UInt8)) (i : Half) :
    (halves (E := E) s r ops ms i).Wp ⟨false, none, []⟩ (i.Left s.mode ops) := by
  cases i with
  | receiver => exact r.tidy_receiveAll ms _ rfl
  | sender =>
    refine (wp_performAll hx rfl ops).mono ?_
    rintro _ v ⟨hheld, results, s', secs, k, rfl, hs, hh, hsp, -⟩
    refine ⟨hheld, results, s', k, rfl, hh, ?_⟩
    rw [hs]
    exact hsp

/-- **The results of a sender are honest.** When the operations of a connection without extensions have
returned `results`, a peer that reads what is on the wire finds the frames of the first operations: all
of those that have succeeded, and of the others at most the one that has failed first. Without a close
frame on the wire, it gets exactly the messages of these operations. -/
theorem results_are_honest {E E' : Type} [Extension E] [Extension E'] {b : Builder E}
    (hx : b.extensions = []) (maskBuffer : List UInt8) (ops : List Op) (ms : List (List UInt8))
    {st : Fuse Half Half.Output (List E)}
    (h : Relation.ReflTransGen Fuse.Step
      (Fuse.init (halves { b.finish.1 with maskBuffer } b.finish.2.1 ops ms) b.finish.2.2) st)
    {out : Option (List (Except Error Unit) × Sender)} (hret : st.fibers .sender = .ret out)
    {p : Receiver} {v : World (List E')} (hp : p.Ready v) (hstream : p.stream = st.wire)
    (hfits : ∀ op ∈ ops, op.Fits p.config) (hctl : maxCtrlBodySize ≤ p.config.maxDataSize.toNat) :
    ∃ results s sent k j, out = some (results, s) ∧ Honest ops results k ∧ (j = k ∨ j = k + 1) ∧
      Delivered b ops ms st p v sent ∧
      Interleave.part .sender sent = (ops.take j).filterMap Op.frame ∧
      ((∀ x ∈ sent, x.2.header.opcode ≠ .close) →
        (heard (sent.map Prod.snd)).filterMap messageOf = (ops.take j).filterMap Op.message) := by
  obtain ⟨sent, fs, hd, hfs, hbegun, hmsg⟩ :=
    exists_delivered hx maskBuffer ops ms h hp hstream hfits hctl
  have hext : b.finish.1.hasExtensions = false := by simp only [Builder.finish, hx]; rfl
  have hleft := @wp_halves E _ { b.finish.1 with maskBuffer } hext b.finish.2.1 ops ms
  have hwp := (Fuse.reachable_wp hleft h).wp .sender
  rw [hret] at hwp
  obtain ⟨⟨hheld, results, s, k, rfl, hh, hsp⟩, -⟩ := hwp
  have hwritten : st.written .sender = (st.sections .sender).flatten := by
    rw [Race.written, show st.held .sender = none from hheld]
    exact List.append_nil _
  rw [hwritten] at hbegun
  obtain ⟨j, hj, hpart⟩ := hsp.eq_take hd.sender hfs hbegun
  refine ⟨results, s, sent, k, j, rfl, hh, hj, hd, hpart, fun hclose => ?_⟩
  rw [hmsg hclose, hpart, filterMap_message]

/-- The writer breaks between two messages, of which the second one then fails. -/
theorem results_are_honest_broken :
    ∃ (st : Fuse Half Half.Output (List Empty)) (b : Builder Empty) (sent : List (Half × Outgoing))
      (s : Sender) (j : ℕ), st.wire = [0x82, 1, 7] ∧ b.finish.2.1.stream = st.wire ∧
      st.fibers .sender = .ret (some ([.ok (), .error .closed], s)) ∧
      Delivered pingedPlain [.sendBinary [7], .sendBinary [8]] [[]] st b.finish.2.1 (b.world []) sent ∧
      (j = 1 ∨ j = 2) ∧ Interleave.part .sender sent =
        ([Op.sendBinary [7], .sendBinary [8]].take j).filterMap Op.frame := by
  let b : Builder Empty := Builder.new [.data [0x82, 1, 7]] .client
  have hrun := Relation.ReflTransGen.refl (r := Fuse.Step)
    (a := Fuse.init (halves { pingedPlain.finish.1 with maskBuffer := [] } pingedPlain.finish.2.1
      [.sendBinary [7], .sendBinary [8]] [[]]) pingedPlain.finish.2.2)
      |>.tail (.whole rfl (.lock (i := .sender) rfl rfl))
      |>.tail (.whole rfl (.write (i := .sender) [0x82, 1] [] rfl))
      |>.tail (.whole rfl (.written (i := .sender) rfl))
      |>.tail (.whole rfl (.write (i := .sender) [7] [] rfl))
      |>.tail (.whole rfl (.written (i := .sender) rfl))
      |>.tail (.whole rfl (.unlock (i := .sender) rfl rfl))
      |>.tail .breaks
      |>.tail (.lock (i := .sender) rfl rfl rfl)
      |>.tail (.rejected (i := .sender) rfl rfl)
      |>.tail (.unlock (i := .sender) rfl rfl rfl)
  obtain ⟨results, s, sent, k, j, hout, hh, hj, hd, hpart, -⟩ :=
    results_are_honest (b := pingedPlain) (p := b.finish.2.1) (v := b.world []) rfl []
      [.sendBinary [7], .sendBinary [8]] [[]] hrun rfl (ready_finish rfl clean_nil.data []) rfl
      (by decide) (by decide)
  obtain rfl : [.ok (), .error .closed] = results := congrArg Prod.fst (Option.some.inj hout)
  -- the first operation has succeeded and the second one has failed
  obtain rfl : k = 1 := by
    rcases k with _ | _ | k
    · cases hh.failed (.sendBinary [7], .ok ()) (by simp) nofun
    · rfl
    · cases hh.whole (.sendBinary [8], .error .closed) (by simp) nofun nofun
  exact ⟨_, b, sent, s, j, rfl, rfl, congrArg Fiber.ret hout, hd, hj, hpart⟩

end Soketto
