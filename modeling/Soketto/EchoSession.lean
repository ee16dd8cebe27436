import Soketto.Echo
import Soketto.Parting

/-!
# A session with an echo server

A client sends, closes and reads on; its peer is an echo server. Neither has extensions.

* `Op.echo`: the frame that the server sends for an operation of the client; `Op.returned`: what the
  client's `receive` returns for it.
* `echoes`: the frames that the server sends for frames; **`echoed_heard`**: those that the loop
  amounts to.
* **`echo_session`**: the client gets back all that it has sent, in order, and the server ends well.
-/

set_option autoImplicit false

namespace Soketto

open Incremental Chunked BigEndian Text Autobahn

/-! ## What comes back -/

namespace Op

/-- The frame that an echo server sends for an operation. -/
def echo : Op → Option Outgoing
  | sendText data | sendTextOwned data => some ⟨Header.new .text, data.toUTF8.toList⟩
  | sendBinary data | sendBinaryMut data => some ⟨Header.new .binary, data⟩
  | sendPing data => some ⟨Header.new .pong, data.bytes⟩
  | sendPong _ | flush => none
  | close => some ⟨Header.new .close, beBytes 2 1000⟩

/-- What a call of the client returns for an operation, and the bytes it appends. -/
def returned : Op → Option (Incoming × List UInt8)
  | sendText data | sendTextOwned data =>
    some (.data (.text data.toUTF8.toList.length), data.toUTF8.toList)
  | sendBinary data | sendBinaryMut data => some (.data (.binary data.length), data)
  | sendPing data => some (.pong data.bytes, [])
  | sendPong _ | flush => none
  | close => some (.closed ⟨1000, some ""⟩, [])

end Op

/-- The frames that an echo server sends for frames. -/
def echoes : List Outgoing → List Outgoing
  | [] => []
  | f :: fs =>
    match f.header.opcode with
    | .text | .binary => ⟨Header.new f.header.opcode, f.payload⟩ :: echoes fs
    | .ping => ⟨Header.new .pong, f.payload⟩ :: echoes fs
    | .close => (answerTo f.header f.payload).toList
    | _ => echoes fs

/-- **What the loop amounts to** on plain frames whose texts are UTF-8. -/
theorem echoed_heard {cfg : Config} {fs : List Outgoing} (hfs : ∀ f ∈ fs, f.Plain cfg)
    (htext : ∀ f ∈ fs, f.header.opcode = .text → (fromUtf8 f.payload).isSome) {outs : List Outcome}
    {last : Outcome} {pending : List Outgoing}
    (hmap : (outs.map fun o => (o.result, o.appended)) = ((heard fs).map fun p => (.ok p.1, p.2)))
    {e : Error} (hlast : last.result = .error e)
    (hrep : (outs ++ [last]).map Outcome.replies = batches pending fs) :
    echoed [] (outs ++ [last]) = (some (.received e), pending ++ echoes fs) := by
  have hend : ∀ {rs}, [last.replies] = [rs] → echoed [] [last] = (some (.received e), rs) := by
    intro rs h
    rw [echoed, hlast, (List.cons.inj h).1]
  induction fs generalizing outs pending with
  | nil =>
    obtain rfl := List.map_eq_nil_iff.mp hmap
    rw [echoes, List.append_nil]
    exact hend hrep
  | cons f fs ih =>
    obtain ⟨hh, hres, hcont, -⟩ := hfs f List.mem_cons_self
    have ih' := fun {o p} => @ih (fun g hg => hfs g (List.mem_cons_of_mem f hg))
      (fun g hg => htext g (List.mem_cons_of_mem f hg)) o p
    have htext' := htext f List.mem_cons_self
    rw [heard] at hmap
    rw [batches] at hrep
    rw [echoes]
    -- the outcome of a data frame
    have hdata : ∀ oc, oc = .text ∨ oc = .binary → (oc = .text → (fromUtf8 f.payload).isSome) →
        (outs.map fun o => (o.result, o.appended)) =
          (((.data (.ofOpCode oc f.payload.length), f.payload) :: heard fs).map
            fun p => (.ok p.1, p.2)) →
        (outs ++ [last]).map Outcome.replies = pending :: batches [] fs →
        echoed [] (outs ++ [last]) =
          (some (.received e), pending ++ ⟨Header.new oc, f.payload⟩ :: echoes fs) := by
      intro oc hoc hutf8 hmap hrep
      cases outs with
      | nil => cases hmap
      | cons o os =>
        rw [List.map_cons, List.map_cons, List.cons.injEq, Prod.mk.injEq] at hmap
        rw [List.cons_append, List.map_cons, List.cons.injEq] at hrep
        obtain ⟨⟨hr, ha⟩, hmap⟩ := hmap
        have hecho : echoOf f.payload (.ofOpCode oc f.payload.length) =
            .ok ⟨Header.new oc, f.payload⟩ := by
          rcases hoc with rfl | rfl
          · simp [Data.ofOpCode, echoOf, hutf8 rfl]
          · simp [Data.ofOpCode, echoOf]
        rw [List.cons_append, echoed, hr]
        dsimp only
        rw [ha, List.nil_append, hecho]
        dsimp only
        rw [ih' hmap hrep.2, hrep.1]
        rfl
    cases hoc : f.header.opcode <;> rw [hoc] at hmap hrep hres hcont htext'
    case text => exact hdata .text (Or.inl rfl) htext' hmap hrep
    case binary => exact hdata .binary (Or.inr rfl) (by simp) hmap hrep
    case ping =>
      dsimp only at hmap hrep ⊢
      rw [ih' hmap hrep, List.append_assoc]
      rfl
    case pong =>
      dsimp only at hmap hrep ⊢
      cases outs with
      | nil => cases hmap
      | cons o os =>
        rw [List.map_cons, List.map_cons, List.cons.injEq, Prod.mk.injEq] at hmap
        rw [List.cons_append, List.map_cons, List.cons.injEq] at hrep
        obtain ⟨⟨hr, ha⟩, hmap⟩ := hmap
        rw [List.cons_append, echoed, hr]
        dsimp only
        rw [ha, List.append_nil, ih' hmap hrep.2, hrep.1]
        rfl
    case close =>
      dsimp only at hmap hrep ⊢
      rw [answerTo, hoc]
      dsimp only
      rcases hca : closeAnswer f.payload with e | ⟨answer, _ | r⟩ <;> rw [hca] at hmap hrep
      · obtain rfl := List.map_eq_nil_iff.mp hmap
        exact (hend hrep).trans (by rw [Option.toList, List.append_nil])
      · obtain rfl := List.map_eq_nil_iff.mp hmap
        exact hend hrep
      · cases outs with
        | nil => cases hmap
        | cons o os =>
          rw [List.map_cons, List.map_cons, List.cons.injEq, Prod.mk.injEq] at hmap
          rw [List.cons_append, List.map_cons, List.cons.injEq] at hrep
          obtain ⟨⟨hr, ha⟩, hmap⟩ := hmap
          obtain rfl := List.map_eq_nil_iff.mp hmap
          rw [List.cons_append, echoed, hr]
          dsimp only
          rw [ha, List.append_nil, List.nil_append, hend hrep.2, hrep.1, List.append_nil]
          rfl
    case «continue» => exact absurd rfl hcont
    all_goals cases hres

/-! ## The session -/

theorem echoes_frames {ops : List Op} (hops : ∀ op ∈ ops, op ≠ .close) :
    echoes ((ops ++ [Op.close]).filterMap Op.frame) = (ops ++ [Op.close]).filterMap Op.echo := by
  induction ops with
  | nil => rfl
  | cons op ops ih =>
    have ih' := ih fun o ho => hops o (List.mem_cons_of_mem op ho)
    rw [List.cons_append, List.filterMap_cons, List.filterMap_cons]
    cases op with
    | close => exact absurd rfl (hops _ List.mem_cons_self)
    | flush => exact ih'
    | sendPong data => exact ih'
    | _ => exact congrArg _ ih'

theorem heard_echo {ops : List Op} (hops : ∀ op ∈ ops, op ≠ .close) :
    heard (beforePing ((ops ++ [Op.close]).filterMap Op.echo)) =
      (ops ++ [Op.close]).filterMap Op.returned := by
  induction ops with
  | nil => rfl
  | cons op ops ih =>
    have ih' := ih fun o ho => hops o (List.mem_cons_of_mem op ho)
    rw [List.cons_append, List.filterMap_cons, List.filterMap_cons]
    cases op with
    | close => exact absurd rfl (hops _ List.mem_cons_self)
    | flush => exact ih'
    | sendPong data => exact ih'
    | _ =>
      dsimp only [Op.echo, Op.returned]
      rw [beforePing_cons, ← ih']
      · rfl
      · exact fun h => by cases h

theorem Op.plain_echo {cfg : Config} {op : Op} {f : Outgoing} (hf : op.echo = some f)
    (hfits : op.Fits cfg) : f.Plain cfg := by
  cases op with
  | flush => cases hf
  | sendPong data => cases hf
  | sendPing data =>
    cases hf
    exact ⟨rfl, rfl, fun h => (by cases h), fun _ => data.length_le, (hfits _ rfl).1,
      fun h => (by cases h)⟩
  | sendText data => exact Op.plain_frame (show (Op.sendText data).frame = some f from hf) hfits
  | sendTextOwned data => exact Op.plain_frame (show (Op.sendTextOwned data).frame = some f from hf) hfits
  | sendBinary data => exact Op.plain_frame (show (Op.sendBinary data).frame = some f from hf) hfits
  | sendBinaryMut data => exact Op.plain_frame (show (Op.sendBinaryMut data).frame = some f from hf) hfits
  | close => exact Op.plain_frame (show Op.close.frame = some f from hf) hfits

theorem Op.utf8_frame {op : Op} {f : Outgoing} (hf : op.frame = some f)
    (h : f.header.opcode = .text) : (fromUtf8 f.payload).isSome := by
  have key : ∀ s : String, (fromUtf8 s.toUTF8.toList).isSome := fun s => by
    rw [toList_toUTF8, fromUtf8_utf8]
    rfl
  cases op <;> cases hf
  case sendText data => exact key data
  case sendTextOwned data => exact key data
  all_goals cases h

/-- **A session with an echo server.** A client without extensions performs operations, closes, and
reads on; its peer runs the echo loop on what it has written. The server ends well. The client's
calls return each of its messages, a pong for each of its pings, in order, and then `Closed` with
the code 1000; then they fail, and nothing more is written. -/
theorem echo_session {E E' : Type} [Extension E] [Extension E'] {c : Builder E} {d : Builder E'}
    (hcx : c.extensions = []) (hdx : d.extensions = []) (hc : Clean c.socket) (hd : Clean d.socket)
    (rc rd : List UInt32) {ops : List Op} (hops : ∀ op ∈ ops, op ≠ .close)
    (hfits : ∀ op ∈ ops ++ [Op.close], op.Fits c.finish.2.1.config ∧ op.Fits d.finish.2.1.config)
    (hd_in : d.finish.2.1.stream =
      ((c.finish.1.performAll (ops ++ [.close])).run (c.world rc)).2.wire)
    (hc_in : c.finish.2.1.stream =
      ((Autobahn.echo d.finish.1 d.finish.2.1).run (d.world rd)).2.wire) :
    (∃ stop, ((Autobahn.echo d.finish.1 d.finish.2.1).run (d.world rd)).1 = some stop ∧
        serverExit stop = .ok) ∧
      ∀ vs : List (List UInt8),
        vs.length = ((ops ++ [Op.close]).filterMap Op.returned).length + 1 →
        c.finish.2.1.HearsOnly c.finish.2.1.stream
          ((c.finish.1.performAll (ops ++ [.close])).run (c.world rc)).2 vs
          ((ops ++ [Op.close]).filterMap Op.returned) := by
  have hclient := ready_finish hcx hc rc
  have hserver := ready_finish hdx hd rd
  obtain ⟨s', hrun⟩ := run_performAll hclient.healthy
    (s := c.finish.1) (by simp only [Builder.finish, hcx]; rfl) hops
  rw [hrun] at hd_in ⊢
  -- what the server reads
  have hplain : ∀ f ∈ (ops ++ [Op.close]).filterMap Op.frame, f.Plain d.finish.2.1.config := by
    intro f hf
    obtain ⟨op, hop, hframe⟩ := List.mem_filterMap.mp hf
    exact Op.plain_frame hframe (hfits op hop).2
  have hst : (Feed.ofReceiver d.finish.2.1 ([] : List E')).stream =
      Outgoing.encode c.mode rc ((ops ++ [Op.close]).filterMap Op.frame) ++ [] := by
    rw [List.append_nil]
    exact hd_in
  obtain ⟨outs, last, h₁, h₂, ⟨e, h₃⟩, h₄⟩ := Feed.receives_heard hserver.hasExtensions c.mode hplain
    (Or.inl rfl) (.refl (Feed.ofReceiver d.finish.2.1 ([] : List E')) _) hserver.isClosed (p := [])
    rfl (List.append_nil _).symm hst
  obtain ⟨stop, w', hecho, hstop, hwire⟩ := run_echo hdx hd rd h₁
    ⟨last, List.mem_append_right _ (List.mem_singleton_self _), e, h₃⟩
  rw [echoed_heard hplain (fun f hf => by
    obtain ⟨op, -, hframe⟩ := List.mem_filterMap.mp hf
    exact Op.utf8_frame hframe) h₂ h₃ h₄, echoes_frames hops] at hstop hwire
  rw [hecho] at hc_in ⊢
  obtain rfl := Option.some.inj hstop
  refine ⟨⟨_, rfl, rfl⟩, fun vs hvs => ?_⟩
  -- what the client reads
  rw [← heard_echo hops] at hvs ⊢
  have hst' : (Feed.ofReceiver c.finish.2.1 ([] : List E)).stream =
      Outgoing.encode d.mode rd ((ops ++ [Op.close]).filterMap Op.echo) ++ [] := by
    rw [List.append_nil]
    exact hc_in.trans hwire
  have hT : Feed.Tracks c.finish.2.1 (c.world rc) c.finish.2.1 (c.world rc)
      (Feed.ofReceiver c.finish.2.1 ([] : List E)) :=
    hclient.shared ▸ .start hclient.clean hclient.isClosed _
  have hplain' : ∀ f ∈ (ops ++ [Op.close]).filterMap Op.echo, f.Plain c.finish.2.1.config := by
    intro f hf
    obtain ⟨op, hop, hframe⟩ := List.mem_filterMap.mp hf
    exact Op.plain_echo hframe (hfits op hop).1
  have hw : World.Parted { emit c.finish.1.mode ((ops ++ [Op.close]).filterMap Op.frame)
      (c.world rc) with closed := true } := ⟨rfl, rfl⟩
  have hshared : (c.world rc).shared = (Feed.ofReceiver c.finish.2.1 ([] : List E)).exts :=
    hclient.shared
  exact hears_parted hclient.hasExtensions hclient.healthy hw hshared hplain' (Or.inl rfl) hT
    hclient.isClosed (List.suffix_refl _) hst' vs hvs

/-- A client that gets the echo of the text `A`, a pong, and the answer to its close frame. -/
def echoClient : Builder Empty :=
  Builder.new [.data [0x81, 1, 65, 0x8A, 1, 7, 0x88, 2, 0x03, 0xE8]] .client

/-- Its server. -/
def echoPeer : Builder Empty :=
  Builder.new [.data [0x81, 0x81, 0, 0, 0, 0, 65, 0x89, 0x81, 0, 0, 0],
    .data [0, 7, 0x88, 0x82, 0, 0, 0, 0, 0x03, 0xE8]] .server

/-- A text and a ping. -/
theorem echo_session_text :
    let ops := [.sendText "A", .sendPing ⟨[7], by decide⟩]
    (∃ stop, ((Autobahn.echo echoPeer.finish.1 echoPeer.finish.2.1).run (echoPeer.world [])).1 =
        some stop ∧ serverExit stop = .ok) ∧
      ∀ vs : List (List UInt8),
        vs.length = ((ops ++ [Op.close]).filterMap Op.returned).length + 1 →
        echoClient.finish.2.1.HearsOnly echoClient.finish.2.1.stream
          ((echoClient.finish.1.performAll (ops ++ [.close])).run (echoClient.world [])).2 vs
          ((ops ++ [Op.close]).filterMap Op.returned) :=
  echo_session (c := echoClient) (d := echoPeer) rfl rfl clean_nil.data clean_nil.data.data [] []
    (by decide +kernel) (by decide +kernel) (by decide +kernel) (by decide +kernel)

end Soketto
