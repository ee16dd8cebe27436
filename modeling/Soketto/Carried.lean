import Soketto.Delivery
import Soketto.Lib.Kept

/-!
# What connections with extensions carry

The halves of a connection share its extensions: the sender encodes with them, the receiver decodes,
and both race for the writer.

* `Extension.Kept P`: encoding and decoding keep `P` true of the extensions. **`keeps_performAll`**,
  **`Receiver.keeps_receiveAll`**: the halves keep it, then.
* `Outgoing.EncodesTo P f g`: extensions with `P` make `g` of the frame `f`.
  **`traces_performAll_within`**: these are the frames that operations write.
* `Outgoing.Carries P cfg Q f`: whatever extensions with `P` make of `f` stands for it, at a peer whose
  extensions satisfy `Q`.
* **`messages_carried`**: such messages arrive, in order, none lost, doubled or made up.
-/

set_option autoImplicit false

namespace Soketto

open Incremental Chunked BigEndian Interleave

/-- Encoding and decoding keep `P` true of the extensions of a connection. -/
structure Extension.Kept {E : Type} [Extension E] (P : List E → Prop) : Prop where
  encode {es : List E} {header : Header} {data : Storage} {enc : Encoded (List E)} (h : P es)
    (henc : Extension.encodeAll es header data = some enc) : P enc.ext
  decode {es : List E} (h : P es) (header : Header) (data : List UInt8) :
    P (Extension.decodeAll es header data).ext

/-! ## The halves keep what the extensions keep -/

section Keeps

variable {E : Type} {P : List E → Prop}

theorem unshared_write (mode : Mode) (codec : Codec) (header : Header) (data : Storage)
    (mb : List UInt8) : (write mode codec header data mb : Fiber (List E) Written).Unshared := by
  have hseal : (sealHeader mode header data : Fiber (List E) Header).Unshared := by
    cases mode
    · exact fun _ => trivial
    · trivial
  refine Fiber.unshared_bind hseal fun header => ?_
  intro ok
  cases ok
  · trivial
  · exact fun _ => trivial

theorem unshared_flushWriter : (flushWriter : Fiber (List E) (Except Error Unit)).Unshared :=
  fun _ => trivial

theorem unshared_closeWriter : (closeWriter : Fiber (List E) (Except Error Unit)).Unshared :=
  fun _ => trivial

theorem unshared_sender_write (s : Sender) (header : Header) (data : Storage) :
    (s.write header data : Fiber (List E) Sent).Unshared :=
  Fiber.unshared_bind (unshared_write _ _ _ _ _) fun _ => trivial

theorem unshared_close (s : Sender) : (s.close : Fiber (List E) Sent).Unshared := by
  refine Fiber.unshared_bind (unshared_sender_write _ _ _) fun out => ?_
  rcases out with ⟨e | u, s'⟩
  · trivial
  · refine Fiber.unshared_bind unshared_flushWriter fun out => ?_
    rcases out with e | u
    · trivial
    · exact Fiber.unshared_bind unshared_closeWriter fun _ => trivial

variable [Extension E]

theorem keeps_sendFrame (hk : Extension.Kept P) (s : Sender) (header : Header) (data : Storage) :
    (s.sendFrame header data : Fiber (List E) (Option Sent)).Keeps P := by
  have hwrite : ∀ header data, (do return some (← s.write header data) :
      Fiber (List E) (Option Sent)).Keeps P := fun header data =>
    Fiber.keeps_bind (unshared_sender_write s header data).keeps fun _ => trivial
  unfold Sender.sendFrame
  split_ifs
  · exact hwrite header data
  · refine Fiber.keeps_bind (Fiber.keeps_locked fun es hes => ?_) fun encoded => ?_
    · rcases henc : Extension.encodeAll es header data with _ | enc
      · exact hes
      · exact hk.encode hes henc
    · rcases encoded with _ | ⟨e | u, header, data⟩
      · trivial
      · trivial
      · exact hwrite header data

theorem keeps_perform (hk : Extension.Kept P) (s : Sender) (op : Op) :
    (s.perform op : Fiber (List E) (Option Sent)).Keeps P := by
  cases op with
  | sendText data => exact keeps_sendFrame hk _ _ _
  | sendTextOwned data => exact keeps_sendFrame hk _ _ _
  | sendBinary data => exact keeps_sendFrame hk _ _ _
  | sendBinaryMut data => exact keeps_sendFrame hk _ _ _
  | sendPing data => exact Fiber.keeps_bind (unshared_sender_write _ _ _).keeps fun _ => trivial
  | sendPong data => exact Fiber.keeps_bind (unshared_sender_write _ _ _).keeps fun _ => trivial
  | flush => exact Fiber.keeps_bind unshared_flushWriter.keeps fun _ => trivial
  | close => exact Fiber.keeps_bind (unshared_close s).keeps fun _ => trivial

/-- **Operations keep what the extensions keep.** -/
theorem keeps_performAll (hk : Extension.Kept P) (s : Sender) (ops : List Op) :
    (s.performAll ops : Fiber (List E) _).Keeps P := by
  induction ops generalizing s with
  | nil => trivial
  | cons op ops ih =>
    refine Fiber.keeps_bind (keeps_perform hk s op) fun out => ?_
    rcases out with _ | ⟨result, s'⟩
    · trivial
    · refine Fiber.keeps_bind (ih s') fun out => ?_
      rcases out with _ | ⟨results, s''⟩ <;> trivial

namespace Receiver

omit [Extension E] in
theorem unshared_flush (self : Receiver) :
    (self.flush : Fiber (List E) (Except Error Unit)).Unshared := by
  unfold flush
  split_ifs
  · trivial
  · exact unshared_flushWriter

omit [Extension E] in
theorem unshared_onControl (self : Receiver) (header : Header) :
    (self.onControl header : Fiber (List E) _).Unshared := by
  unfold onControl
  split
  · refine Fiber.unshared_bind (unshared_write _ _ _ _ _) fun w => ?_
    dsimp only
    split
    · trivial
    · refine Fiber.unshared_bind (unshared_flush _) fun out => ?_
      rcases out with e | u <;> trivial
  · trivial
  · split
    · trivial
    · refine Fiber.unshared_bind (unshared_write _ _ _ _ _) fun w => ?_
      refine Fiber.unshared_bind (unshared_flush _) fun out => ?_
      rcases out with e | u
      · trivial
      · exact Fiber.unshared_bind unshared_closeWriter fun _ => trivial
  · trivial

omit [Extension E] in
theorem unshared_controlFrame (self : Receiver) (header : Header) (l : Locals) :
    (self.controlFrame header l : Fiber (List E) Round).Unshared := by
  unfold controlFrame
  rcases self.readBuffer header with ⟨e | u, r₁⟩
  · trivial
  · dsimp only
    split_ifs
    · trivial
    · refine Fiber.unshared_bind (unshared_onControl _ _) fun out => ?_
      rcases out with ⟨e | _ | reason, r₂⟩ <;> trivial

theorem keeps_decodeWithExtensions (hk : Extension.Kept P) (self : Receiver) (header : Header)
    (message : List UInt8) :
    (self.decodeWithExtensions header message : Fiber (List E) _).Keeps P := by
  unfold decodeWithExtensions
  split_ifs
  · trivial
  · exact Fiber.keeps_locked fun es hes => hk.decode hes header message

theorem keeps_assemble (hk : Extension.Kept P) (self : Receiver) (header : Header) (l : Locals) :
    (self.assemble header l : Fiber (List E) Round).Keeps P := by
  unfold assemble
  split
  · split <;> trivial
  all_goals
    split <;> first
      | trivial
      | refine Fiber.keeps_bind (keeps_decodeWithExtensions hk _ _ _) fun out => ?_
        rcases out with ⟨e | u, header, message⟩ <;> trivial

theorem keeps_receiveRound (hk : Extension.Kept P) (self : Receiver) (l : Locals) :
    (self.receiveRound l : Fiber (List E) (Option Round)).Keeps P := by
  have hdata : ∀ (r : Receiver) header, (r.dataFrame header l : Fiber (List E) Round).Keeps P := by
    intro r header
    unfold dataFrame
    dsimp only
    split_ifs
    · split <;> trivial
    · rcases r.readPayload header l.message with ⟨e | u, r', message⟩
      · trivial
      · exact keeps_assemble hk _ _ _
  unfold receiveRound
  split_ifs
  · trivial
  · split
    · trivial
    · trivial
    · split_ifs
      · exact Fiber.keeps_bind (unshared_controlFrame _ _ _).keeps fun _ => trivial
      · exact Fiber.keeps_bind (hdata _ _) fun _ => trivial

theorem keeps_receiveLoop (hk : Extension.Kept P) (fuel : ℕ) (self : Receiver) (l : Locals) :
    (receiveLoop fuel self l : Fiber (List E) _).Keeps P := by
  induction fuel generalizing self l with
  | zero => trivial
  | succ fuel ih =>
    refine Fiber.keeps_bind (keeps_receiveRound hk self l) fun out => ?_
    rcases out with _ | ⟨self, l⟩ | ⟨result, self, message⟩
    · trivial
    · exact ih self l
    · trivial

/-- **Calls keep what the extensions keep.** -/
theorem keeps_receiveAll (hk : Extension.Kept P) (self : Receiver) (ms : List (List UInt8)) :
    (self.receiveAll ms : Fiber (List E) _).Keeps P := by
  induction ms generalizing self with
  | nil => trivial
  | cons m ms ih =>
    refine Fiber.keeps_bind (keeps_receiveLoop hk _ self (.start m)) fun out => ?_
    rcases out with _ | out
    · trivial
    · refine Fiber.keeps_bind (ih out.receiver) fun outs => ?_
      rcases outs with _ | outs <;> trivial

end Receiver

end Keeps

/-! ## Frames that are encoded -/

namespace Outgoing

variable {E E' : Type} [Extension E] [Extension E']

/-- Extensions with `P` may make the frame `g` of the frame `f`. -/
inductive EncodesTo (P : List E → Prop) : Outgoing → Outgoing → Prop
  | control {f : Outgoing} (h : f.header.opcode.isControl = true) : EncodesTo P f f
  | data {f : Outgoing} {es : List E} {data : Storage} {enc : Encoded (List E)}
      (h : f.header.opcode.isControl = false) (hp : P es) (hd : data.asRef = f.payload)
      (henc : Extension.encodeAll es f.header data = some enc) (hok : enc.result = .ok ()) :
      EncodesTo P f ⟨enc.header, enc.data.asRef⟩

/-- Extensions with `P` do not refuse the frame, and what they make of it stands for it at a peer whose
extensions satisfy `Q`. -/
structure Carries (P : List E → Prop) (cfg : Config) (Q : List E' → Prop) (f : Outgoing) : Prop where
  accepted {es : List E} {data : Storage} {enc : Encoded (List E)}
    (h : f.header.opcode.isControl = false) (hp : P es) (hd : data.asRef = f.payload)
    (henc : Extension.encodeAll es f.header data = some enc) : enc.result = .ok ()
  standsFor {g : Outgoing} (h : EncodesTo P f g) : g.StandsFor cfg Q f

theorem Plain.standsFor_control {cfg : Config} {f : Outgoing} (h : f.Plain cfg)
    (hctl : f.header.opcode.isControl = true) (Q : List E' → Prop) : f.StandsFor cfg Q f where
  accepts mode mask := by
    have hacc := accepts_sealed h.not_reserved h.control_len h.data_len mode mask
    rwa [← h.header] at hacc
  fin := by rw [h.header]; rfl
  opcode := rfl
  not_continue := h.not_continue
  control _ := rfl
  message_len := h.message_len
  decode hdata := by rw [hctl] at hdata; cases hdata

theorem Plain.carries_control {cfg : Config} {f : Outgoing} (h : f.Plain cfg)
    (hctl : f.header.opcode.isControl = true) (P : List E → Prop) (Q : List E' → Prop) :
    f.Carries P cfg Q where
  accepted hdata := by rw [hctl] at hdata; cases hdata
  standsFor henc := by
    cases henc with
    | control _ => exact h.standsFor_control hctl Q
    | data hdata => rw [hctl] at hdata; cases hdata

end Outgoing

section Sender

variable {E : Type} [Extension E] {P : List E → Prop} {g : List E → List E} {s : Sender}
  {secs : List (List UInt8)} {c' : Option (List UInt8)}

/-- What an operation leaves: nothing, when an extension does not return, or the frame that it has
written, encoded by extensions with `P`. -/
def Sends (P : List E → Prop) (s : Sender) (op : Op) (secs : List (List UInt8)) : Option Sent → Prop
  | none => secs = []
  | some out => out.sender.mode = s.mode ∧ out.sender.hasExtensions = s.hasExtensions ∧
    ∃ fs, List.Forall₂ (Outgoing.EncodesTo P) op.frame.toList fs ∧ WriteFrames s.mode secs fs

theorem traces_sendFrame_within (hg : ∀ es, P (g es)) (hx : s.hasExtensions = true) {op : Op}
    {f : Outgoing} {data : Storage} {out : Option Sent} (hf : op.frame = some f)
    (hctl : f.header.opcode.isControl = false) (hd : data.asRef = f.payload)
    (hok : ∀ {es enc}, P es → Extension.encodeAll es f.header data = some enc → enc.result = .ok ())
    (ht : ((s.sendFrame f.header data).within g).Traces none secs out c') :
    c' = none ∧ Sends P s op secs out := by
  have hnot : ¬(!s.hasExtensions) = true := by rw [hx]; decide
  rw [Sender.sendFrame, if_neg hnot, Fiber.within_bind] at ht
  obtain ⟨secs₁, secs₂, encoded, c₁, rfl, henc, hrest⟩ := Fiber.traces_bind.mp ht
  obtain ⟨⟨es, he⟩, rfl, rfl⟩ := Fiber.traces_within_locked.mp henc
  have hrest := hrest.of_within
  rcases hes : Extension.encodeAll (g es) f.header data with _ | enc <;> rw [hes] at he
  · subst he
    obtain ⟨rfl, rfl, rfl⟩ := hrest
    exact ⟨rfl, rfl⟩
  · have hres := hok (hg es) hes
    obtain rfl : some (.ok (), enc.header, enc.data) = encoded := by rw [← he, ← hres]
    obtain ⟨secs₁, secs₂, sent, c₁, rfl, hwr, hret⟩ := Fiber.traces_bind.mp hrest
    obtain ⟨-, hm, hext', rfl, hw⟩ := traces_sender_write hwr
    obtain ⟨rfl, rfl, rfl⟩ := hret
    refine ⟨rfl, hm, hext', [⟨enc.header, enc.data.asRef⟩], ?_, ?_⟩
    · rw [hf]
      exact .cons (.data hctl (hg es) hd hes hres) .nil
    · rw [List.append_nil]
      exact hw

theorem sends_of_control {op : Op} (hop : ∀ f ∈ op.frame, f.header.opcode.isControl = true)
    {out : Option Sent} (ht : (s.perform op : Fiber (List E) _).Traces none secs out c') :
    c' = none ∧ Sends P s op secs out := by
  obtain ⟨rfl, hperf⟩ := traces_perform ht
  refine ⟨rfl, ?_⟩
  rcases out with _ | ⟨result, s'⟩
  · exact hperf
  obtain ⟨hm, hext, fs, hwrites, hw⟩ := hperf
  refine ⟨hm, hext, fs, ?_, hw⟩
  dsimp only at hwrites
  cases hwrites with
  | plain =>
    exact List.forall₂_same.mpr fun f hf => .control (hop f (Option.mem_toList.mp hf))
  | encoded _ hf hctl =>
    have hc := hop _ hf
    rw [hctl] at hc
    cases hc
  | refused _ hf hctl =>
    have hc := hop _ hf
    rw [hctl] at hc
    cases hc

/-- An operation of which nothing is refused by extensions with `P`. -/
def Op.Accepted (P : List E → Prop) (op : Op) : Prop :=
  ∀ f ∈ op.frame, f.header.opcode.isControl = false → ∀ {es} {data : Storage} {enc}, P es →
    data.asRef = f.payload → Extension.encodeAll es f.header data = some enc → enc.result = .ok ()

theorem traces_perform_within (hg : ∀ es, P (g es)) (hx : s.hasExtensions = true) {op : Op}
    (hop : op.Accepted P) {out : Option Sent}
    (ht : ((s.perform op).within g).Traces none secs out c') : c' = none ∧ Sends P s op secs out := by
  cases op with
  | sendText data =>
    exact traces_sendFrame_within hg hx rfl rfl rfl (fun h => hop _ rfl rfl h rfl) ht
  | sendTextOwned data =>
    exact traces_sendFrame_within hg hx rfl rfl rfl (fun h => hop _ rfl rfl h rfl) ht
  | sendBinary data =>
    exact traces_sendFrame_within hg hx rfl rfl rfl (fun h => hop _ rfl rfl h rfl) ht
  | sendBinaryMut data =>
    exact traces_sendFrame_within hg hx rfl rfl rfl (fun h => hop _ rfl rfl h rfl) ht
  | sendPing data => exact sends_of_control (fun f hf => by cases hf; rfl) ht.of_within
  | sendPong data => exact sends_of_control (fun f hf => by cases hf; rfl) ht.of_within
  | flush => exact sends_of_control (fun f hf => by cases hf) ht.of_within
  | close => exact sends_of_control (fun f hf => by cases hf; rfl) ht.of_within

/-- **The sections of operations** are the frames that extensions with `P` make of theirs. -/
theorem traces_performAll_within (hg : ∀ es, P (g es)) (hx : s.hasExtensions = true) {ops : List Op}
    (hops : ∀ op ∈ ops, op.Accepted P) {out : Option (List (Except Error Unit) × Sender)}
    (ht : ((s.performAll ops).within g).Traces none secs out c') :
    c' = none ∧ ∃ ops₁ fs, ops₁ <+: ops ∧
      List.Forall₂ (Outgoing.EncodesTo P) (ops₁.filterMap Op.frame) fs ∧ WriteFrames s.mode secs fs ∧
      ∀ x, out = some x → ops₁ = ops := by
  induction ops generalizing s secs out c' with
  | nil =>
    obtain ⟨rfl, rfl, rfl⟩ := ht
    exact ⟨rfl, [], [], List.prefix_refl _, .nil, writeFrames_nil, fun _ _ => rfl⟩
  | cons op ops ih =>
    rw [Sender.performAll, Fiber.within_bind] at ht
    obtain ⟨secs₁, secs₂, sent, c₁, rfl, hop, hrest⟩ := Fiber.traces_bind.mp ht
    obtain ⟨rfl, hsends⟩ := traces_perform_within hg hx (hops op List.mem_cons_self) hop
    rcases sent with _ | ⟨result, s'⟩
    · obtain ⟨rfl, rfl, rfl⟩ := hrest
      obtain rfl : secs₁ = [] := hsends
      exact ⟨rfl, [], [], List.nil_prefix, .nil, writeFrames_nil, fun x hx => by cases hx⟩
    · obtain ⟨hm, hext, fs, hfs, hw⟩ := hsends
      dsimp only at hrest hm hext
      rw [Fiber.within_bind] at hrest
      obtain ⟨secs₃, secs₄, more, c₂, rfl, hall, hret⟩ := Fiber.traces_bind.mp hrest
      obtain ⟨rfl, ops₁, gs, hpre, hgs, hw', hsome⟩ := ih (hext.trans hx)
        (fun o ho => hops o (List.mem_cons_of_mem _ ho)) hall
      rw [hm] at hw'
      have hframes : (op :: ops₁).filterMap Op.frame =
          op.frame.toList ++ ops₁.filterMap Op.frame := by
        rw [List.filterMap_cons]
        cases op.frame <;> rfl
      have hfs' : List.Forall₂ (Outgoing.EncodesTo P) ((op :: ops₁).filterMap Op.frame) (fs ++ gs) := by
        rw [hframes]
        exact List.rel_append hfs hgs
      have hpre' : op :: ops₁ <+: op :: ops := (List.prefix_cons_inj op).mpr hpre
      rcases more with _ | more
      all_goals
        obtain ⟨rfl, rfl, rfl⟩ := hret
        rw [List.append_nil]
        refine ⟨rfl, op :: ops₁, fs ++ gs, hpre', hfs', hw.append hw', fun x hx => ?_⟩
        cases hx
      rw [hsome _ rfl]

end Sender

/-! ## What arrives -/

/-- An open receiver whose extensions satisfy `Q`, none of whose reads and writes fails. -/
structure Receiver.ReadyWith {E : Type} (Q : List E → Prop) (r : Receiver) (w : World (List E)) : Prop where
  shared : Q w.shared
  isClosed : r.isClosed = false
  clean : Clean r.reader
  healthy : w.Healthy

namespace Feed

variable {E : Type} [Extension E]

theorem receives_of_tracks_nil {r₀ : Receiver} {w₀ : World (List E)} (hw : w₀.Healthy)
    {s : List UInt8} {outs : List Outcome} {st : Feed E} (hr : Receives r₀.config s st outs)
    {r : Receiver} {w : World (List E)} (hT : Tracks r₀ w₀ r w st) :
    r.Receives s w (List.replicate outs.length []) outs := by
  induction outs generalizing st r w with
  | nil => exact trivial
  | cons o os ih =>
    obtain ⟨st', hrun, hsent, hpos, hrest⟩ := hr
    rcases sim_receive hrun hT with hb | ⟨r', w', hout, hT', hw'⟩
    · exact absurd hw hb.1
    have hmode : r.mode = r₀.mode := congrArg Config.mode hT.config
    refine ⟨r', w', hout, ?_, fun hs => ?_, ?_⟩
    · rw [hw' hw, hT.world hw, hmode]
      exact wire_world hsent
    · rw [(hT' hs).stream]
      exact hpos hs
    · cases hres : o.result with
      | error e =>
        rw [hres] at hrest
        obtain rfl : os = [] := hrest
        exact ⟨rfl, rfl⟩
      | ok i =>
        rw [hres] at hrest
        exact ih hrest (hT' (by rw [hres]; trivial))

end Feed

section Standing

variable {E : Type} [Extension E] {cfg : Config} {Q : List E → Prop} {f g : Outgoing}

theorem Outgoing.StandsFor.not_reserved (h : g.StandsFor cfg Q f) :
    f.header.opcode.isReserved = false := by
  have hacc := (h.accepts .server 0).not_reserved
  rwa [opcode_sealed, h.opcode] at hacc

theorem Outgoing.StandsFor.unfinished (h : g.StandsFor cfg Q f) {mode : Mode} {mask : UInt32}
    {rest more : List UInt8} (hmore : more ≠ []) (hbytes : g.bytes mode mask = rest ++ more) :
    Unfinished cfg rest := by
  obtain ⟨G, hG, -⟩ := h.exists_frame mode mask
  exact Or.inr ⟨G, more, hmore, hG.trans hbytes⟩

/-- **What the frames on a wire stand for** are the first frames of the halves. -/
theorem Wired.exists_standing {mode : Mode} {gs fs : Half → List Outgoing} {wire : List UInt8}
    {written : List (Half × Outgoing)} (hw : Wired mode gs wire written)
    (hgs : ∀ i, List.Forall₂ (fun g f => g.StandsFor cfg Q f) (gs i) (fs i)) :
    ∃ sent : List (Half × Outgoing),
      List.Forall₂ (fun g f => Outgoing.StandsFor cfg Q g f) (written.map Prod.snd)
        (sent.map Prod.snd) ∧
      ∀ i, part i sent <+: fs i ∧ (part i written = gs i → part i sent = fs i) := by
  choose more hmore using hw.parts
  have hall : ∀ i, List.Forall₂ (fun g f => Outgoing.StandsFor cfg Q g f)
      (part i written ++ more i) (fs i) := fun i => by
    rw [hmore i]
    exact hgs i
  obtain ⟨sent, rest, hsent, hparts⟩ := exists_interleaving hall
  refine ⟨sent, ?_, fun i => ⟨?_, fun hi => ?_⟩⟩
  · rw [List.forall₂_map_left_iff, List.forall₂_map_right_iff]
    exact hsent.imp fun _ _ h => h.2
  · rw [(hparts i).1]
    exact List.prefix_append _ _
  · have hnil : more i = [] := by
      have hm := hmore i
      rw [hi] at hm
      exact List.append_right_eq_self.mp hm
    have hr := (hparts i).2
    rw [hnil] at hr
    have hrest : rest i = [] := List.forall₂_nil_left_iff.mp hr
    rw [(hparts i).1, hrest, List.append_nil]

end Standing

/-- What the peer `p` gets of the frames `sent`, which the halves of a connection have written so far,
encoded by its extensions. -/
structure Carried {E E' : Type} [Extension E] [Extension E'] (b : Builder E) (ops : List Op)
    (ms : List (List UInt8)) (st : Fuse Half Half.Output (List E)) (p : Receiver)
    (v : World (List E')) (sent : List (Half × Outgoing)) : Prop where
  /-- The frames of the operations, in order. -/
  sender : part .sender sent <+: ops.filterMap Op.frame
  /-- The answers to what was received meanwhile, in order. -/
  receiver : ∃ all fs, b.finish.2.1.AnswersAll E all ms fs ∧ part .receiver sent <+: fs
  /-- Calls of the peer with empty vectors report these frames, and then fail. -/
  hears : ∃ outs last,
    p.Receives p.stream v (List.replicate ((heard (sent.map Prod.snd)).length + 1) [])
      (outs ++ [last]) ∧
    (outs.map fun o => (o.result, o.appended)) =
      ((heard (sent.map Prod.snd)).map fun x => (.ok x.1, x.2)) ∧
    ∃ e, last.result = .error e
  /-- The messages that they report are the first ones that were sent. -/
  messages : (heard (sent.map Prod.snd)).filterMap messageOf <+: ops.filterMap Op.message
  /-- They are all of them when the sender is done and neither half has closed. -/
  complete : st.broken = false → (∃ x, st.fibers .sender = .ret (some x)) →
    (∀ x ∈ sent, x.2.header.opcode ≠ .close) →
    (heard (sent.map Prod.snd)).filterMap messageOf = ops.filterMap Op.message

section Race

variable {E E' : Type} [Extension E] [Extension E'] {P : List E → Prop} {g : List E → List E}
  {s : Sender} {r : Receiver} {ops : List Op} {ms : List (List UInt8)}
  {st : Race Half Half.Output (List E)}

theorem disciplined_halves_within (g : List E → List E) (s : Sender) (r : Receiver) (ops : List Op)
    (ms : List (List UInt8)) (i : Half) : ((halves s r ops ms i).within g).Disciplined :=
  (disciplined_halves s r ops ms i).within g

theorem keeps_halves (hk : Extension.Kept P) (s : Sender) (r : Receiver) (ops : List Op)
    (ms : List (List UInt8)) (i : Half) : (halves s r ops ms i).Keeps P := by
  cases i with
  | sender => exact keeps_performAll hk s ops
  | receiver => exact Receiver.keeps_receiveAll hk r ms

theorem exists_frames_within (hg : ∀ es, P (g es)) (hx : s.hasExtensions = true)
    (hops : ∀ op ∈ ops, op.Accepted P) (hm : r.mode = s.mode)
    (hinv : Race.Inv (fun i => (halves s r ops ms i).within g) st) :
    ∃ (more : Half → List (List UInt8)) (gs : Half → List Outgoing) (ops₁ : List Op),
      (∀ i, WriteFrames s.mode (st.sections i ++ more i) (gs i)) ∧
      (∀ i c, st.current = some (i, c) → ∃ rest more', more i = (c ++ rest) :: more') ∧
      ops₁ <+: ops ∧ List.Forall₂ (Outgoing.EncodesTo P) (ops₁.filterMap Op.frame) (gs .sender) ∧
      (∃ all, r.AnswersAll E all ms (gs .receiver)) ∧
      ∀ x, st.fibers .sender = .ret (some x) → more .sender = [] ∧ ops₁ = ops := by
  obtain ⟨more, out, htr, hcur, hret⟩ := hinv.exists_traces .sender
  obtain ⟨-, ops₁, fs, hpre, hfs, hw, hout⟩ := traces_performAll_within hg hx hops htr
  obtain ⟨more', out', htr', hcur', -⟩ := hinv.exists_traces .receiver
  obtain ⟨-, fs', hw', ha⟩ := Receiver.traces_receiveAll htr'.of_within
  rw [hm] at hw'
  refine ⟨Half.pick more more', Half.pick fs fs', ops₁, fun i => ?_, fun i => ?_, hpre, hfs, ⟨_, ha⟩,
    fun x hx' => ?_⟩
  · cases i
    · exact hw
    · exact hw'
  · cases i
    · exact hcur
    · exact hcur'
  obtain ⟨hmore, rfl⟩ := hret _ hx'
  exact ⟨hmore, hout x rfl⟩

theorem standing_frames {cfg : Config} {Q : List E' → Prop} {ops₁ : List Op}
    {gs : Half → List Outgoing} (hops : ∀ op ∈ ops₁, ∀ f ∈ op.frame, f.Carries P cfg Q)
    (hgs : List.Forall₂ (Outgoing.EncodesTo P) (ops₁.filterMap Op.frame) (gs .sender)) {all : Bool}
    (ha : r.AnswersAll E all ms (gs .receiver)) (hctl : maxCtrlBodySize ≤ cfg.maxDataSize.toNat)
    (i : Half) : List.Forall₂ (fun g f => Outgoing.StandsFor cfg Q g f) (gs i)
      (Half.pick (ops₁.filterMap Op.frame) (gs .receiver) i) := by
  cases i with
  | sender =>
    have hcarries : ∀ f ∈ ops₁.filterMap Op.frame, f.Carries P cfg Q := fun f hf => by
      obtain ⟨op, hop, hframe⟩ := List.mem_filterMap.mp hf
      exact hops op hop f hframe
    have hboth := List.forall₂_and_left _ _ |>.mpr ⟨hcarries, hgs⟩
    exact (hboth.imp fun f g h => h.1.standsFor h.2).flip
  | receiver =>
    refine List.forall₂_same.mpr fun f hf => ?_
    have hplain := ha.forall (fun _ _ => Receiver.plain_answer hctl) f hf
    refine hplain.standsFor_control ?_ Q
    rcases ha.forall (fun _ _ => Receiver.header_answer) f hf with hh | hh <;> rw [hh] <;> rfl

end Race

/-- **Extensions change nothing.** The halves of a connection share its extensions, and race for them
and for a writer that may break at any time, with any operations, any bytes received and any calls.
Encoding and decoding keep `P` true of the extensions. A peer whose extensions satisfy `Q` reads what is
on the wire at any moment, split in any way. If what extensions with `P` make of the frames of the
operations stands for them at the peer, it gets their messages. -/
theorem messages_carried {E E' : Type} [Extension E] [Extension E'] {b : Builder E}
    (hne : b.extensions ≠ []) {P : List E → Prop} (hk : Extension.Kept P) (hP : P b.extensions)
    (maskBuffer : List UInt8) (ops : List Op) (ms : List (List UInt8))
    {st : Fuse Half Half.Output (List E)}
    (h : Relation.ReflTransGen Fuse.Step
      (Fuse.init (halves { b.finish.1 with maskBuffer } b.finish.2.1 ops ms) b.finish.2.2) st)
    {Q : List E' → Prop} {p : Receiver} {v : World (List E')} (hp : p.ReadyWith Q v)
    (hstream : p.stream = st.wire) (hops : ∀ op ∈ ops, ∀ f ∈ op.frame, f.Carries P p.config Q)
    (hctl : maxCtrlBodySize ≤ p.config.maxDataSize.toNat) : ∃ sent, Carried b ops ms st p v sent := by
  obtain ⟨g, hg, hfix⟩ := Fiber.exists_within hP
  obtain ⟨-, hin⟩ := Fuse.reachable_within (keeps_halves hk _ _ ops ms) hP hfix h
  obtain ⟨race, hrace, hwire, hsame⟩ := Fuse.reachable hin
  have hinv := Race.reachable (disciplined_halves_within g _ _ ops ms) hrace
  have hext : ({ b.finish.1 with maskBuffer } : Sender).hasExtensions = true := by
    simpa [Builder.finish] using hne
  have haccepted : ∀ op ∈ ops, op.Accepted P := fun op hop f hf hdata _ _ _ hes hd henc =>
    (hops op hop f hf).accepted hdata hes hd henc
  obtain ⟨more, gs, ops₁, hw, hcur, hpre, hgs, ⟨all, ha⟩, hret⟩ :=
    exists_frames_within hg hext haccepted rfl hinv
  have hstand := standing_frames (fun op hop => hops op (hpre.subset hop)) hgs ha hctl
  obtain ⟨written, hwritten, hall, -⟩ := wired_of_inv hinv hw hcur
  obtain ⟨sent, hsent, hparts⟩ := hwritten.exists_standing hstand
  obtain ⟨masks, rest, henc, hrest⟩ := hwritten.wire
  have hunfinished : Unfinished p.config rest := by
    rcases hrest with hnil | ⟨i, f, hf, mask, more', hmore, hbytes⟩
    · exact Or.inl hnil
    · obtain ⟨f', -, hf'⟩ := exists_related (hstand i) hf
      exact hf'.unfinished hmore hbytes
  obtain ⟨outs, last, h₁, h₂, h₃, -⟩ := Feed.receives_standsFor b.mode hsent hunfinished
    (.refl (Feed.ofReceiver p v.shared) _) hp.isClosed hp.shared (p := []) rfl
    (List.append_nil _).symm (hstream.trans (hwire.trans henc))
  have hlen : (outs ++ [last]).length = (heard (sent.map Prod.snd)).length + 1 := by
    have hlen := congrArg List.length h₂
    rw [List.length_map, List.length_map] at hlen
    rw [List.length_append, hlen, List.length_singleton]
  have hhears := Feed.receives_of_tracks_nil hp.healthy h₁ (.start hp.clean hp.isClosed v)
  rw [hlen] at hhears
  have hknown : ∀ f ∈ sent.map Prod.snd,
      f.header.opcode.isReserved = false ∧ f.header.opcode ≠ .continue := by
    intro f hf
    have hflip : List.Forall₂ (fun f g => Outgoing.StandsFor p.config Q g f) (sent.map Prod.snd)
        (written.map Prod.snd) := hsent.flip
    obtain ⟨f', -, hf'⟩ := exists_related hflip hf
    exact ⟨hf'.not_reserved, hf'.not_continue⟩
  have hsender : part .sender sent <+: ops.filterMap Op.frame :=
    (hparts .sender).1.trans (hpre.filterMap _)
  have hmsg := filterMap_message_part fun f hf =>
    ha.forall (P := fun f => f.message = none) (fun _ _ => message_answer) f
      ((hparts .receiver).1.subset hf)
  obtain ⟨hfirst, hcomplete⟩ := messages_heard hknown
  rw [hmsg] at hfirst hcomplete
  refine ⟨sent, hsender, ⟨all, _, ha, (hparts .receiver).1⟩, ⟨outs, last, hhears, h₂, h₃⟩, ?_, ?_⟩
  · rw [← filterMap_message]
    exact hfirst.trans (hsender.filterMap _)
  · rintro hb ⟨x, hx⟩ hclose
    have hdone : race.fibers .sender = .ret (some x) := by
      rw [← hsame hb]
      exact Race.fibers_within hx
    obtain ⟨hmore, rfl⟩ := hret x hdone
    rw [hcomplete fun f hf => ?_, (hparts .sender).2 (hall .sender hmore), ← filterMap_message]
    · rfl
    · obtain ⟨y, hy, rfl⟩ := List.mem_map.mp hf
      exact hclose y hy

end Soketto
