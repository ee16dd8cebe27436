import Soketto.CompressedRun
import Soketto.Session
import Soketto.Setters
import Soketto.Windows

/-!
# A session with compression, from the handshake on

A client offers deflate and a server supports it. The handshake enables it on both sides, and the
messages of either side go through the connection that comes out of it.

* `Deflate.enabled_of_setOnce`: what the handshake makes of the two extensions.
* `Deflating`: a connection right after a handshake that has enabled deflate; **`Deflating.carried`**:
  what one of them writes, another one gets.
* **`compressed_session`**: the handshake, and what arrives after it.
-/

set_option autoImplicit false

namespace Soketto

open Handshake
open Chunked (Source Clean bytes)

variable {F : Flate}

/-! ## The negotiation -/

namespace Deflate

/-- The extension of a server that was offered `d`. -/
def partner (d : Deflate F) : Deflate F := ((Deflate.new .server : Deflate F).configure d.params).2

/-- **The handshake enables deflate on both sides**, with windows within what the other side expects. -/
theorem enabled_of_setOnce {a b : Bool} {d : Deflate F} (h : d.SetOnce a b) :
    configureHeaders [(Deflate.new .server : Deflate F)] (offerHeaders [d]) = (.ok (), [d.partner]) ∧
      configureHeaders [d] (offerHeaders ([d.partner].filter Extension.isEnabled)) =
        (.ok (), [{ d with enabled := true }]) ∧
      d.partner.enabled = true ∧ d.partner.ourMaxWindowBits ≤ d.theirMaxWindowBits ∧
      d.ourMaxWindowBits ≤ d.partner.theirMaxWindowBits := by
  obtain ⟨sv, cv, -, -, hs, hc, rfl⟩ := h.eq_withWindows
  have hanswer : (withWindows sv cv : Deflate F).partner = answering sv cv := configure_withWindows F hs hc
  have hplain : PlainParams [(answering sv cv : Deflate F)] := plainParams_answering hs
  rw [hanswer]
  refine ⟨?_, ?_, rfl, UInt8.le_refl _, UInt8.le_refl _⟩
  · rw [configureHeaders_offerHeader (plainParams_withWindows hs hc), configure_withWindows F hs hc]
  · have hfilter : [(answering sv cv : Deflate F)].filter Extension.isEnabled = [answering sv cv] := rfl
    rw [hfilter, configureHeaders_offerHeader hplain, configure_answering F hs]

theorem SetOnce.reached {a b : Bool} {d : Deflate F} (h : d.SetOnce a b) : d.Reached := by
  induction h with
  | new => exact .new .client
  | server _ m hd ih => exact ih.setMaxServerWindowBits m hd
  | client _ m hd ih => exact ih.setMaxClientWindowBits m hd

theorem inRange_partner (d : Deflate F) : d.partner.InRange :=
  (Reached.configure (.new .server) d.params).inRange

end Deflate

/-! ## The connection -/

/-- What the operation sends is delivered unambiguously to a new connection, within its limits. -/
def Flate.Lawful.Sendable (hF : F.Lawful) (bits : UInt8) (op : Op) : Prop :=
  ∀ cfg : Config, cfg.maxDataSize = maxFrameSize → cfg.maxMessageSize = maxMessageSize →
    ∀ f ∈ op.frame, f.header.opcode.isControl = false → f.payload ≠ [] → hF.Delivers bits cfg f.payload

/-- The builder is that of a connection with deflate, after a handshake, which is sent `stream`. -/
structure Deflating (b : Builder (Deflate F)) (d : Deflate F) (stream : List UInt8) : Prop where
  extensions : b.extensions = [d]
  ready : b.finish.2.1.ReadyWith Deflate.Only (b.world [])
  inflates : b.finish.2.1.config.Inflates
  maxDataSize : b.finish.2.1.config.maxDataSize = maxFrameSize
  maxMessageSize : b.finish.2.1.config.maxMessageSize = maxMessageSize
  stream : b.finish.2.1.stream = stream

theorem deflating_addExtensions {reader : Source UInt8} (hclean : Clean reader) (mode : Mode)
    (buffer : List UInt8) {d : Deflate F} (hd : d.enabled = true) :
    Deflating (((Builder.new reader mode).setBuffer buffer).addExtensions [d]) d (buffer ++ bytes reader) := by
  let start : Builder (Deflate F) := (Builder.new reader mode).setBuffer buffer
  have hadd : start.addExtensions [d] =
      { start with
        codec := (Codec.new.setMaxDataSize maxFrameSize).addReservedBits (true, false, false)
        extensions := [d] } := by
    rw [Builder.addExtensions, List.foldl_cons, List.foldl_nil]
    exact if_pos hd
  have hrsv1 : (((Codec.new.setMaxDataSize maxFrameSize).addReservedBits (true, false, false)).reservedBits
      &&& 4 == 0) = false := by decide
  refine hadd ▸ ?_
  exact ⟨rfl, ⟨⟨d, rfl⟩, rfl, hclean, ⟨rfl, rfl⟩⟩, ⟨rfl, hrsv1⟩, rfl, rfl, rfl⟩

variable {a b : Builder (Deflate F)} {d d' : Deflate F} {s stream : List UInt8}

/-- **What one connection writes, another one gets.** -/
theorem Deflating.carried (ha : Deflating a d s) (hb : Deflating b d' stream) (hF : F.Lawful)
    (hd : d.InRange) (maskBuffer : List UInt8) {ops : List Op}
    (hops : ∀ op ∈ ops, hF.Sendable d.ourMaxWindowBits op) (ms : List (List UInt8))
    {st : Fuse Half Half.Output (List (Deflate F))}
    (h : Relation.ReflTransGen Fuse.Step
      (Fuse.init (halves { a.finish.1 with maskBuffer } a.finish.2.1 ops ms) a.finish.2.2) st)
    (hstream : stream = st.wire) : ∃ sent, Carried a ops ms st b.finish.2.1 (b.world []) sent := by
  have hne : a.extensions ≠ [] := by rw [ha.extensions]; exact List.cons_ne_nil d []
  have hctl : maxCtrlBodySize ≤ b.finish.2.1.config.maxDataSize.toNat := by
    rw [hb.maxDataSize]
    decide
  exact messages_carried hne (Deflate.kept_alone _) ⟨d, ha.extensions, rfl⟩ maskBuffer ops ms h hb.ready
    (hb.stream.trans hstream)
    (fun op hop f hf => carries_deflate hF hd.our hb.inflates hctl hf
      (hops op hop _ hb.maxDataSize hb.maxMessageSize f hf)) hctl

/-- **A whole session with compression.** A client with deflate, whose windows were set at most once
each, and a server with deflate do the handshake over sockets that bring its bytes in any chunks. Both
accept, and both have enabled deflate, with windows within what the other side expects. Then what the
halves of either end write, in any interleaving and with a writer that may break, the other end reads,
with the messages of the operations whose compressed bytes are unambiguous and within the limits. -/
theorem compressed_session (hF : F.Lawful) {http : Http.Parser} {sha1 : List UInt8 → Vector UInt8 20}
    (hhttp : StreamsHeads http) {a b : Bool} {d : Deflate F} (hd : d.SetOnce a b)
    {c : Client (Deflate F)} {s : Server (Deflate F)} (hc : ValidClient c) (hce : c.extensions = [d])
    (hse : s.extensions = [.new .server]) (nonce : Vector UInt8 16) {p : Option String}
    (hp : ∀ q ∈ p, q ∈ c.protocols) (hlen : (c.request nonce).length ≤ maxHeadersSize)
    (hcw : c.socket.outcomes = []) (hsw : s.socket.outcomes = []) {r later : Source UInt8} (hr : Clean r)
    (hrequest : bytes r = c.request nonce) (hlater : Clean later) :
    ∃ request s', (s.withReader (r ++ later)).accept http sha1 p = some (.ok request, s') ∧
      s'.extensions = [d.partner] ∧ d.partner.enabled = true ∧
      d.partner.ourMaxWindowBits ≤ d.theirMaxWindowBits ∧
      d.ourMaxWindowBits ≤ d.partner.theirMaxWindowBits ∧
      ∃ response, s'.socket.wire = s.socket.wire ++ response ∧
        ∀ {rc tail}, Clean rc → bytes rc = response ++ tail →
          ∃ c', (c.withReader rc).handshake http sha1 nonce = some (.ok (.accepted p), c') ∧
            c'.socket.wire = c.socket.wire ++ c.request nonce ∧
            c'.extensions = [{ d with enabled := true }] ∧
            (∀ {maskBuffer ops ms st}, (∀ op ∈ ops, hF.Sendable d.ourMaxWindowBits op) →
              Relation.ReflTransGen Fuse.Step
                (Fuse.init (halves { c'.intoBuilder.finish.1 with maskBuffer } c'.intoBuilder.finish.2.1
                  ops ms) c'.intoBuilder.finish.2.2) st →
              bytes later = st.wire →
              ∃ sent, Carried c'.intoBuilder ops ms st s'.intoBuilder.finish.2.1
                (s'.intoBuilder.world []) sent) ∧
            ∀ {maskBuffer ops ms st}, (∀ op ∈ ops, hF.Sendable d.partner.ourMaxWindowBits op) →
              Relation.ReflTransGen Fuse.Step
                (Fuse.init (halves { s'.intoBuilder.finish.1 with maskBuffer } s'.intoBuilder.finish.2.1
                  ops ms) s'.intoBuilder.finish.2.2) st →
              tail = st.wire →
              ∃ sent, Carried s'.intoBuilder ops ms st c'.intoBuilder.finish.2.1
                (c'.intoBuilder.world []) sent := by
  have hs : ∀ e ∈ s.extensions, Extension.Always TokenParams WellFormed e := by
    intro e he
    rw [hse] at he
    obtain rfl := List.mem_singleton.mp he
    exact always_wellFormed_deflate (tokenParams_new .server)
  obtain ⟨hoffer, hanswer, henabled, hour, htheir⟩ := Deflate.enabled_of_setOnce hd
  obtain ⟨request, s', r', haccept, hacc, hreader, hnil, hr'⟩ :=
    accept_alone hhttp hc hs hsw hlen sha1 p hr hrequest later
  have hexts : s'.extensions = [d.partner] := by
    rw [hacc.extensions, configureHeaders_request hc, hce, hse, hoffer]
  refine ⟨request, s', haccept, hexts, henabled, hour, htheir, _, hacc.wire, ?_⟩
  intro rc tail hrc hresponse
  obtain ⟨c', hhand, htail, hclean', hwire, hext⟩ := handshake_accepted hhttp hc hcw
    (fun e he => (hacc.wellFormed e he).now) hp nonce hrc hresponse
  rw [configureHeaders_response, hexts, hce, hanswer] at hext
  refine ⟨c', hhand, hwire, hext, ?_⟩
  have hclient : Deflating c'.intoBuilder { d with enabled := true } tail := by
    rw [Client.intoBuilder, hext, ← htail]
    exact deflating_addExtensions hclean' .client c'.buffer rfl
  have hserver : Deflating s'.intoBuilder d.partner (bytes later) := by
    have h := deflating_addExtensions (hr'.append hlater) .server [] henabled
    rw [List.nil_append, Chunked.bytes_append, hnil, List.nil_append] at h
    rw [Server.intoBuilder, hexts, hacc.buffer, hreader]
    exact h
  have hrange : ({ d with enabled := true } : Deflate F).InRange := ⟨hd.reached.inRange.our, hd.reached.inRange.their⟩
  exact ⟨fun hops h hstream => hclient.carried hserver hF hrange _ hops _ h hstream,
    fun hops h hstream => hserver.carried hclient hF d.inRange_partner _ hops _ h hstream⟩

/-! ## An example -/

/-- A client with deflate. -/
def blocksClient : Client (Deflate .blocks) :=
  (Client.new ⟨[], [], []⟩ "example.com" "/").addExtension (.new .client)

def blocksServer : Server (Deflate .blocks) := (Server.new ⟨[], [], []⟩).addExtension (.new .server)

theorem validClient_blocksClient : ValidClient blocksClient where
  resource := ⟨show "/" ≠ "" by decide,
    List.all_eq_true.mp (show "/".toList.all isTargetChar = true by decide)⟩
  host := (show IsToken "example.com" by decide).isVisible.isValue
  headers h hh := absurd hh List.not_mem_nil
  extensionsName h hh := absurd hh List.not_mem_nil
  protocolName h hh := absurd hh List.not_mem_nil
  protocols q hq := absurd hq List.not_mem_nil
  extensions e he := by
    obtain rfl := List.mem_singleton.mp he
    exact always_wellFormed_deflate (tokenParams_new .client)
  count nonce := show 6 ≤ 32 by decide

theorem sendable_seven : Flate.lawfulBlocks.Sendable 15 (.sendBinary [7]) := by
  intro cfg hdata hmessage f hf _ _
  cases hf
  exact Blocks.delivers_seven (by rw [hdata]; decide) (by rw [hmessage]; decide)

/-- The extension of the server after the handshake. -/
def blocksPartner : Deflate .blocks := (Deflate.new .client).partner

/-- The connection of the server after the handshake. -/
def blocksOpened (socket : Socket) (protocols : List String) (buffer : List UInt8) :
    Builder (Deflate .blocks) :=
  Server.intoBuilder ⟨socket, protocols, [blocksPartner], buffer⟩

/-- The client gets the byte 7, which the server has sent after the handshake. -/
theorem compressed_session_seven :
    (StreamsHeads lineParser ∧ ValidClient blocksClient ∧
      (blocksClient.request (Vector.replicate 16 0)).length ≤ maxHeadersSize) ∧
    ∃ request s' c', ∃ (st : Fuse Half Half.Output (List (Deflate .blocks)))
        (sent : List (Half × Outgoing)),
      (blocksServer.withReader [.data (blocksClient.request (Vector.replicate 16 0))]).accept lineParser
        Sha1.sha1 none = some (.ok request, s') ∧
      (blocksClient.withReader [.data (s'.socket.wire ++ st.wire)]).handshake lineParser Sha1.sha1
        (Vector.replicate 16 0) = some (.ok (.accepted none), c') ∧
      st.wire = compressedSeven ∧
      Carried s'.intoBuilder [.sendBinary [7]] [] st c'.intoBuilder.finish.2.1
        (c'.intoBuilder.world []) sent := by
  have hlen : (blocksClient.request (Vector.replicate 16 0)).length ≤ maxHeadersSize := by decide +kernel
  obtain ⟨request, s', haccept, hexts, -, -, -, response, hwire, hclient⟩ :=
    @compressed_session Flate.blocks Flate.lawfulBlocks lineParser Sha1.sha1 streamsHeads_lineParser
      false false (.new .client) .new blocksClient blocksServer validClient_blocksClient rfl rfl
      (Vector.replicate 16 0) none (by simp) hlen rfl rfl
      [.data (blocksClient.request (Vector.replicate 16 0))] [] (by simp [Clean]) (by simp)
      (by simp [Clean])
  obtain rfl : s'.socket.wire = response := hwire
  obtain ⟨c', hhand, -, -, -, hrun⟩ :=
    @hclient [.data (s'.socket.wire ++ compressedSeven)] compressedSeven (by simp [Clean]) (by simp)
  obtain ⟨socket, protocols, extensions, buffer⟩ := s'
  obtain rfl : extensions = [blocksPartner] := hexts
  have hshared := (Relation.ReflTransGen.refl (r := Fuse.Step)
    (a := Fuse.init (halves
      { (blocksOpened socket protocols buffer).finish.1 with maskBuffer := [] }
      (blocksOpened socket protocols buffer).finish.2.1 [.sendBinary [7]] [])
      [blocksPartner])).tail
    (.whole rfl (.shared (i := .sender) rfl))
  simp only [Fuse.init, Race.init, encodeAll_seven (d := blocksPartner) rfl] at hshared
  have hst := hshared
    |>.tail (.whole rfl (.lock (i := .sender) rfl rfl))
    |>.tail (.whole rfl (.write (i := .sender) [0xC2, 7] [] rfl))
    |>.tail (.whole rfl (.written (i := .sender) rfl))
    |>.tail (.whole rfl (.write (i := .sender) (compressedSeven.drop 2) [] rfl))
  obtain ⟨sent, hcarried⟩ := @hrun [] [.sendBinary [7]] [] _
    (fun op hop => by
      obtain rfl := List.mem_singleton.mp hop
      exact sendable_seven) hst rfl
  exact ⟨⟨streamsHeads_lineParser, validClient_blocksClient, hlen⟩, request, _, c', _, sent, haccept,
    hhand, rfl, hcarried⟩

end Soketto
