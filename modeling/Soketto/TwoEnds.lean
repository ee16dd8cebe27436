import Soketto.Listening

/-!
# The two ends of a connection

Both ends of a connection without extensions are running: on each of them the sender performs
operations and the receiver is called up to the first error, in any order of their steps, and each
writer may break at any time. What an end has read so far is the beginning of what the other has
written so far.

* `End`: how an end was built and what it does; `End.start`: before its first step.
* **`exists_sent`**: the frames that an end has written; its answers are those to what it has read.
* **`two_ends`**: the messages that an end has got are the first that the other has sent, and the
  pongs are those that the other has sent, besides the answers to its own pings, in order.
-/

set_option autoImplicit false

namespace Soketto

open Incremental Chunked BigEndian Interleave

variable {E : Type} [Extension E]

/-- One end of a connection: how it was built, the operations of its sender, and the vectors that its
receiver is called with. -/
structure End (E : Type) where
  builder : Builder E
  maskBuffer : List UInt8
  ops : List Op
  vectors : List (List UInt8)

namespace End

/-- The sender before the first operation. -/
def sender (e : End E) : Sender := { e.builder.finish.1 with maskBuffer := e.maskBuffer }

/-- The receiver before the first call. -/
def receiver (e : End E) : Receiver := e.builder.finish.2.1

/-- What the halves do. -/
def halves (e : End E) : (i : Half) → Fiber (List E) i.Output
  | .sender => e.sender.performAll e.ops
  | .receiver => e.receiver.listen e.vectors

/-- The end before the first step. -/
def start (e : End E) : Fuse Half Half.Output (List E) := .init e.halves e.builder.finish.2.2

/-- The end has no extensions, and its reads do not fail. -/
structure Plain (e : End E) : Prop where
  extensions : e.builder.extensions = []
  clean : Clean e.builder.socket

/-- What `a` sends is not too large for `b`. -/
structure Suits (a b : End E) : Prop where
  ops : ∀ op ∈ a.ops, op.Fits b.receiver.config
  control : maxCtrlBodySize ≤ b.receiver.config.maxDataSize.toNat

omit [Extension E] in
theorem Plain.sender_hasExtensions {e : End E} (he : e.Plain) : e.sender.hasExtensions = false := by
  simp only [End.sender, Builder.finish, he.extensions]
  rfl

omit [Extension E] in
theorem Plain.receiver_hasExtensions {e : End E} (he : e.Plain) :
    e.receiver.hasExtensions = false := by
  simp only [receiver, Builder.finish, he.extensions]
  rfl

/-- The calls of the receiver on its stream, up to an error, amount to `outs`. -/
def Calls (e : End E) (outs : List Outcome) : Prop :=
  Feed.Receives e.receiver.config e.receiver.stream (Feed.ofReceiver e.receiver ([] : List E)) outs ∧
    Feed.Fails outs

theorem exists_calls (e : End E) : ∃ outs, e.Calls outs :=
  Feed.exists_calls e.receiver

variable {e : End E} {st : Fuse Half Half.Output (List E)}

/-- A world with a closed writer, in which nothing is known of what is written. -/
def nowhere (E : Type) : World (List E) := ⟨[], true, [], [], []⟩

omit [Extension E] in
theorem not_healthy_nowhere : ¬(nowhere E).Healthy := fun h => by cases h.closed

omit [Extension E] in
theorem Plain.tracks (he : e.Plain) :
    Feed.Tracks e.receiver (nowhere E) e.receiver (nowhere E) (Feed.ofReceiver e.receiver []) :=
  .start he.clean rfl (nowhere E)

theorem disciplined (e : End E) (i : Half) : (e.halves i).Disciplined := by
  cases i with
  | sender => exact disciplined_performAll e.sender e.ops
  | receiver => exact Feed.disciplined_listen e.receiver e.vectors

/-- **The frames that an end has written**: those of its operations, and answers to what it has
read. -/
theorem exists_sent (he : e.Plain) (h : Relation.ReflTransGen Fuse.Step e.start st)
    {outs : List Outcome} (ho : e.Calls outs) :
    ∃ (fs : Half → List Outgoing) (sent : List (Half × Outgoing)),
      Wired e.builder.mode fs st.wire sent ∧ fs .sender <+: e.ops.filterMap Op.frame ∧
      fs .receiver <+: outs.flatMap Outcome.replies ∧
      ∀ f ∈ fs .receiver, ∃ r : Receiver, r.answer = some f := by
  obtain ⟨race, hrace, hwire, -⟩ := Fuse.reachable h
  have hinv := Race.reachable e.disciplined hrace
  obtain ⟨more, out, htr, hcur, -⟩ := hinv.exists_traces .sender
  obtain ⟨-, ops₁, results, fs, hpre, hops, hw, -⟩ := traces_performAll htr
  rw [he.sender_hasExtensions] at hops
  obtain rfl := hops.eq_frames
  obtain ⟨more', out', htr', hcur', -⟩ := hinv.exists_traces .receiver
  obtain ⟨rs, hw', hrs, hans⟩ := Feed.traces_listen he.receiver_hasExtensions not_healthy_nowhere
    ho.1 ho.2 he.tracks htr'
  let left : Half → List (List UInt8) := fun | .sender => more | .receiver => more'
  let frames : Half → List Outgoing := fun | .sender => ops₁.filterMap Op.frame | .receiver => rs
  have hwrite : ∀ i, WriteFrames e.builder.mode (race.sections i ++ left i) (frames i)
    | .sender => hw
    | .receiver => hw'
  obtain ⟨sent, hsent, -⟩ := wired_of_inv hinv hwrite fun | .sender => hcur | .receiver => hcur'
  exact ⟨frames, sent, hwire ▸ hsent, hpre.filterMap _, hrs, hans⟩

theorem exists_gained (he : e.Plain) (h : Relation.ReflTransGen Fuse.Step e.start st)
    {outs : List Outcome} (ho : e.Calls outs) {out : Option (List (Received Incoming))}
    (hret : st.fibers .receiver = .ret out) :
    ∃ got, out = some got ∧ gained e.vectors got <+: outs.filterMap Outcome.gain := by
  have hreturns : (e.halves .receiver).Returns out := Fuse.returns h (by rw [hret]; rfl)
  exact Feed.returns_listen he.receiver_hasExtensions not_healthy_nowhere ho.1 ho.2 he.tracks
    hreturns

end End

/-! ## The beginning of a wire -/

theorem Unfinished.of_prefix {cfg : Config} {part part' : List UInt8} (h : Unfinished cfg part)
    (hp : part' <+: part) : Unfinished cfg part' := by
  obtain ⟨t, rfl⟩ := hp
  rcases h with hnil | ⟨g, more, hmore, hg⟩
  · exact Or.inl (List.append_eq_nil_iff.mp hnil).1
  · refine Or.inr ⟨g, t ++ more, fun h => hmore (List.append_eq_nil_iff.mp h).2, ?_⟩
    rw [hg, List.append_assoc]

/-- **The beginning of a wire** holds the first frames and the beginning of one. -/
theorem exists_take {cfg : Config} {mode : Mode} {masks : List UInt32} {fs : List Outgoing}
    (hfs : ∀ f ∈ fs, f.Plain cfg) {rest stream : List UInt8} (hrest : Unfinished cfg rest)
    (h : stream <+: Outgoing.encode mode masks fs ++ rest) :
    ∃ k part, stream = Outgoing.encode mode masks (fs.take k) ++ part ∧ Unfinished cfg part := by
  induction fs generalizing masks stream with
  | nil => exact ⟨0, stream, rfl, hrest.of_prefix h⟩
  | cons f fs ih =>
    rw [Outgoing.encode, List.append_assoc] at h
    rcases List.prefix_or_prefix_of_prefix h (List.prefix_append _ _) with hin | ⟨s, rfl⟩
    · by_cases heq : stream = f.bytes mode (masks.headD 0)
      · refine ⟨1, [], ?_, Or.inl rfl⟩
        rw [heq, List.take_succ_cons, List.take_zero, Outgoing.encode, Outgoing.encode,
          List.append_nil, List.append_nil]
      · obtain ⟨more, hmore⟩ := hin
        obtain ⟨hh, h₁, -, h₂, h₃, -⟩ := hfs f List.mem_cons_self
        obtain ⟨g, hg, -⟩ := exists_frame f.header.opcode f.payload h₁ h₂ h₃ mode (masks.headD 0)
        rw [← hh] at hg
        refine ⟨0, stream, rfl, Or.inr ⟨g, more, ?_, hg.trans hmore.symm⟩⟩
        rintro rfl
        exact heq (by rw [← hmore, List.append_nil])
    · obtain ⟨k, part, rfl, hpart⟩ := ih (fun g hg => hfs g (List.mem_cons_of_mem f hg))
        ((List.prefix_append_right_inj _).mp h)
      exact ⟨k + 1, part, by rw [List.take_succ_cons, Outgoing.encode, List.append_assoc], hpart⟩

/-! ## Pings and pongs -/

/-- The payload of a pong. -/
def Outgoing.pong (f : Outgoing) : Option (List UInt8) :=
  if f.header.opcode = .pong then some f.payload else none

/-- The payload of a ping. -/
def Outgoing.ping (f : Outgoing) : Option (List UInt8) :=
  if f.header.opcode = .ping then some f.payload else none

/-- The pong among the results of calls. -/
def pongOf : Incoming × List UInt8 → Option (List UInt8)
  | (.pong p, _) => some p
  | _ => none

/-- The payload of an unsolicited pong. -/
def Op.pong (op : Op) : Option (List UInt8) := op.frame.bind Outgoing.pong

/-- The payload of a ping that is sent. -/
def Op.ping (op : Op) : Option (List UInt8) := op.frame.bind Outgoing.ping

theorem filterMap_frame {β : Type} (g : Outgoing → Option β) (ops : List Op) :
    (ops.filterMap Op.frame).filterMap g = ops.filterMap fun op => op.frame.bind g := by
  rw [List.filterMap_filterMap]

theorem pongs_heard (fs : List Outgoing) :
    (heard fs).filterMap pongOf <+: fs.filterMap Outgoing.pong := by
  induction fs with
  | nil => exact List.prefix_refl _
  | cons f fs ih =>
    rw [heard, List.filterMap_cons, Outgoing.pong]
    cases hoc : f.header.opcode
    case pong => exact (List.prefix_cons_inj _).mpr ih
    case close =>
      dsimp only
      rcases closeAnswer f.payload with e | ⟨answer, _ | r⟩ <;> exact List.nil_prefix
    all_goals first | exact ih | exact List.nil_prefix

theorem pongs_replies (fs : List Outgoing) :
    (replies fs).filterMap Outgoing.pong <+: fs.filterMap Outgoing.ping := by
  induction fs with
  | nil => exact List.prefix_refl _
  | cons f fs ih =>
    rw [replies, List.filterMap_append, List.filterMap_cons, Outgoing.ping, answerTo]
    cases hoc : f.header.opcode
    case ping => exact (List.prefix_cons_inj _).mpr ih
    case close =>
      rcases hca : closeAnswer f.payload with e | ⟨answer, reason⟩
      · exact List.nil_prefix
      · have hh := Receiver.header_closeAnswer hca
        simp [Outgoing.pong, hh, Header.new]
    all_goals exact ih

theorem ping_answer {r : Receiver} {f : Outgoing} (h : r.answer = some f) : f.ping = none := by
  rcases Receiver.header_answer h with hh | hh <;> rw [Outgoing.ping, hh] <;> rfl

/-! ## Both ends -/

namespace End

variable {a b : End E} {sta stb : Fuse Half Half.Output (List E)}

omit [Extension E] in
theorem Suits.plain (h : a.Suits b) {fs : Half → List Outgoing}
    (hops : fs .sender <+: a.ops.filterMap Op.frame)
    (hans : ∀ f ∈ fs .receiver, ∃ r : Receiver, r.answer = some f) (i : Half) :
    ∀ f ∈ fs i, f.Plain b.receiver.config := by
  cases i with
  | sender =>
    intro f hf
    obtain ⟨op, hop, hframe⟩ := List.mem_filterMap.mp (hops.subset hf)
    exact Op.plain_frame hframe (h.ops op hop)
  | receiver =>
    intro f hf
    obtain ⟨r, hr⟩ := hans f hf
    exact Receiver.plain_answer h.control hr

/-- **What an end reads** are the first frames that the other has written. -/
theorem hears_wired (hb : b.Plain) {mode : Mode} {fs : Half → List Outgoing} {wire : List UInt8}
    {sent : List (Half × Outgoing)} (hw : Wired mode fs wire sent)
    (hplain : ∀ i, ∀ f ∈ fs i, f.Plain b.receiver.config) (hin : b.receiver.stream <+: wire)
    {outs : List Outcome} (ho : b.Calls outs) :
    ∃ k, outs.filterMap Outcome.gain = heard ((sent.map Prod.snd).take k) ∧
      outs.flatMap Outcome.replies = replies ((sent.map Prod.snd).take k) := by
  obtain ⟨hsent, masks, rest, hwire, hunfinished⟩ := hw.plain hplain
  rw [hwire] at hin
  obtain ⟨k, part, hstream, hpart⟩ := exists_take hsent hunfinished hin
  obtain ⟨got, last, h₁, h₂, ⟨e, he⟩, h₃⟩ := Feed.receives_heard hb.receiver_hasExtensions mode
    (fun f hf => hsent f (List.mem_of_mem_take hf)) hpart
    (.refl (Feed.ofReceiver b.receiver ([] : List E)) _) rfl (p := []) rfl (List.append_nil _).symm
    hstream
  have hfails : Feed.Fails (got ++ [last]) :=
    ⟨last, List.mem_append_right _ (List.mem_singleton_self _), e, he⟩
  obtain ⟨hgain, hreplies⟩ := Feed.receives_unique ho.1 ho.2 h₁ hfails
  exact ⟨k, hgain.trans (filterMap_gain h₂ he), hreplies.trans
    (flatMap_replies (fun f hf => hsent f (List.mem_of_mem_take hf)) h₃)⟩

/-- What the end `a` has got from `b`. -/
structure GotFrom (a b : End E) (got : List (Incoming × List UInt8)) : Prop where
  /-- The messages are the first ones that `b` has sent. -/
  messages : got.filterMap messageOf <+: b.ops.filterMap Op.message
  /-- The pongs are the first ones that `b` has sent, and the answers to the first pings of `a`. -/
  pongs : ∃ pongs : List (Half × List UInt8), got.filterMap pongOf <+: pongs.map Prod.snd ∧
    part .sender pongs <+: b.ops.filterMap Op.pong ∧
    part .receiver pongs <+: a.ops.filterMap Op.ping

theorem gotFrom (ha : a.Plain) (hb : b.Plain) (hab : a.Suits b) (hba : b.Suits a)
    (hsa : Relation.ReflTransGen Fuse.Step a.start sta)
    (hsb : Relation.ReflTransGen Fuse.Step b.start stb)
    (hina : a.receiver.stream <+: stb.wire) (hinb : b.receiver.stream <+: sta.wire)
    {out : Option (List (Received Incoming))} (hret : sta.fibers .receiver = .ret out) :
    ∃ got, out = some got ∧ GotFrom a b (gained a.vectors got) := by
  obtain ⟨outsa, hca⟩ := a.exists_calls
  obtain ⟨outsb, hcb⟩ := b.exists_calls
  obtain ⟨fsa, senta, hwa, hopsa, -, hansa⟩ := exists_sent ha hsa hca
  obtain ⟨fsb, sentb, hwb, hopsb, hrsb, hansb⟩ := exists_sent hb hsb hcb
  obtain ⟨j, hgain, -⟩ := hears_wired ha hwb (hba.plain hopsb hansb) hina hca
  obtain ⟨k, -, hreplies⟩ := hears_wired hb hwa (hab.plain hopsa hansa) hinb hcb
  obtain ⟨got, rfl, hgot⟩ := exists_gained ha hsa hca hret
  rw [hgain] at hgot
  rw [hreplies] at hrsb
  -- the answers bring no messages, and no pings
  have hmsg : (sentb.map Prod.snd).filterMap Outgoing.message =
      (part .sender sentb).filterMap Outgoing.message := by
    refine filterMap_part fun i f hf hi => ?_
    cases i with
    | sender => exact absurd rfl hi
    | receiver =>
      obtain ⟨r, hr⟩ := hansb f ((hwb.parts .receiver).subset (mem_part.mpr hf))
      exact message_answer hr
  have hping : (senta.map Prod.snd).filterMap Outgoing.ping =
      (part .sender senta).filterMap Outgoing.ping := by
    refine filterMap_part fun i f hf hi => ?_
    cases i with
    | sender => exact absurd rfl hi
    | receiver =>
      obtain ⟨r, hr⟩ := hansa f ((hwa.parts .receiver).subset (mem_part.mpr hf))
      exact ping_answer hr
  have hknown : ∀ f ∈ (sentb.map Prod.snd).take j,
      f.header.opcode.isReserved = false ∧ f.header.opcode ≠ .continue := by
    intro f hf
    obtain ⟨⟨i, g⟩, hg, rfl⟩ := List.mem_map.mp (List.mem_of_mem_take hf)
    have hp := hba.plain hopsb hansb i g ((hwb.parts i).subset (mem_part.mpr hg))
    exact ⟨hp.not_reserved, hp.not_continue⟩
  refine ⟨got, rfl, ?_, image Outgoing.pong sentb, ?_, ?_, ?_⟩
  · calc (gained a.vectors got).filterMap messageOf
      _ <+: (heard ((sentb.map Prod.snd).take j)).filterMap messageOf := hgot.filterMap _
      _ <+: ((sentb.map Prod.snd).take j).filterMap Outgoing.message := (messages_heard hknown).1
      _ <+: (sentb.map Prod.snd).filterMap Outgoing.message := (List.take_prefix _ _).filterMap _
      _ = (part .sender sentb).filterMap Outgoing.message := hmsg
      _ <+: (b.ops.filterMap Op.frame).filterMap Outgoing.message :=
        ((hwb.parts .sender).trans hopsb).filterMap _
      _ = b.ops.filterMap Op.message := filterMap_frame _ _
  · rw [map_image]
    exact (hgot.filterMap _).trans ((pongs_heard _).trans ((List.take_prefix _ _).filterMap _))
  · rw [part_image]
    exact (((hwb.parts .sender).trans hopsb).filterMap _).trans
      (by rw [filterMap_frame]; exact List.prefix_refl _)
  · rw [part_image]
    calc (part .receiver sentb).filterMap Outgoing.pong
      _ <+: (replies ((senta.map Prod.snd).take k)).filterMap Outgoing.pong :=
        ((hwb.parts .receiver).trans hrsb).filterMap _
      _ <+: ((senta.map Prod.snd).take k).filterMap Outgoing.ping := pongs_replies _
      _ <+: (senta.map Prod.snd).filterMap Outgoing.ping := (List.take_prefix _ _).filterMap _
      _ = (part .sender senta).filterMap Outgoing.ping := hping
      _ <+: (a.ops.filterMap Op.frame).filterMap Outgoing.ping :=
        ((hwa.parts .sender).trans hopsa).filterMap _
      _ = a.ops.filterMap Op.ping := filterMap_frame _ _

end End

/-- **Both ends agree on what was said.** Two ends of a connection without extensions run in any
order of their steps, with any operations and calls, and their writers may break. Each has read the
beginning of what the other has written. Then each has got the first messages of the other, and the
pongs are those that the other has sent and the answers to its own pings, each in order. -/
theorem two_ends {a b : End E} {sta stb : Fuse Half Half.Output (List E)} (ha : a.Plain)
    (hb : b.Plain) (hab : a.Suits b) (hba : b.Suits a)
    (hsa : Relation.ReflTransGen Fuse.Step a.start sta)
    (hsb : Relation.ReflTransGen Fuse.Step b.start stb)
    (hina : a.receiver.stream <+: stb.wire) (hinb : b.receiver.stream <+: sta.wire) :
    (∀ out, sta.fibers .receiver = .ret out →
        ∃ got, out = some got ∧ End.GotFrom a b (gained a.vectors got)) ∧
      ∀ out, stb.fibers .receiver = .ret out →
        ∃ got, out = some got ∧ End.GotFrom b a (gained b.vectors got) :=
  ⟨fun _ h => End.gotFrom ha hb hab hba hsa hsb hina hinb h,
    fun _ h => End.gotFrom hb ha hba hab hsb hsa hinb hina h⟩

/-- A client that sends a ping, and gets the pong. -/
def pinging : End Empty where
  builder := Builder.new [.data [0x8A, 1, 7]] .client
  maskBuffer := []
  ops := [.sendPing ⟨[7], by decide⟩]
  vectors := [[]]

/-- Its server. -/
def pinged : End Empty where
  builder := Builder.new [.data [0x89, 0x81, 1, 2], .data [3, 4, 6]] .server
  maskBuffer := []
  ops := []
  vectors := [[]]

/-- The ping is on the wire, its answer too, and the client has got it. -/
theorem two_ends_ping :
    ∃ sta stb : Fuse Half Half.Output (List Empty),
      sta.wire = [0x89, 0x81, 1, 2, 3, 4, 6] ∧ stb.wire = [0x8A, 1, 7] ∧
      (∃ out, sta.fibers .receiver = .ret out) ∧
      (∀ out, sta.fibers .receiver = .ret out →
        ∃ got, out = some got ∧ End.GotFrom pinging pinged (gained pinging.vectors got)) ∧
      ∀ out, stb.fibers .receiver = .ret out →
        ∃ got, out = some got ∧ End.GotFrom pinged pinging (gained pinged.vectors got) := by
  have hsa := Relation.ReflTransGen.refl (r := Fuse.Step) (a := pinging.start)
    |>.tail (.whole rfl (.random (i := .sender) 0x01020304 rfl))
    |>.tail (.whole rfl (.lock (i := .sender) rfl rfl))
    |>.tail (.whole rfl (.write (i := .sender) [0x89, 0x81, 1, 2, 3, 4] [] rfl))
    |>.tail (.whole rfl (.written (i := .sender) rfl))
    |>.tail (.whole rfl (.write (i := .sender) [6] [] rfl))
    |>.tail (.whole rfl (.written (i := .sender) rfl))
  have hsb := Relation.ReflTransGen.refl (r := Fuse.Step) (a := pinged.start)
    |>.tail (.whole rfl (.lock (i := .receiver) rfl rfl))
    |>.tail (.whole rfl (.write (i := .receiver) [0x8A, 1] [] rfl))
    |>.tail (.whole rfl (.written (i := .receiver) rfl))
    |>.tail (.whole rfl (.write (i := .receiver) [7] [] rfl))
    |>.tail .breaks
    |>.tail (.rejected (i := .receiver) rfl rfl)
    |>.tail (.unlock (i := .receiver) rfl rfl rfl)
  exact ⟨_, _, rfl, rfl, ⟨_, rfl⟩, two_ends ⟨rfl, clean_nil.data⟩ ⟨rfl, clean_nil.data.data⟩
    ⟨by decide, by decide⟩ ⟨by decide, by decide⟩ hsa hsb (List.prefix_refl _) (List.prefix_refl _)⟩

end Soketto
