import Soketto.Compressed

/-!
# Messages that are not compressed

Runs of calls of `receive` with the deflate extension: any reader and any writer, any vectors, calls
that go on whatever the calls before them returned, and a sender that compresses in between.

* `Moment`: a moment of a run, with the frames that the current call has taken. `Calls`: the runs.
* `Moment.Steady`: a call that returns does not leave the extension waiting for a last fragment.
* `Moment.InStep`: the extension and the call agree; **`InStep.again`**, **`InStep.ret`** for one
  round, **`Calls.inStep`** for runs.
* **`never_inflated`**: in steady runs, messages that are not compressed are not inflated.
-/

set_option autoImplicit false

namespace Soketto

open Incremental Chunked

/-- Data frames with their unmasked payloads. -/
abbrev Taken := List (Header × List UInt8)

namespace Taken

/-- Is RSV1 set in the first frame? -/
def compressed (fs : Taken) : Bool := fs.head?.any (·.1.rsv1)

/-- The payloads in a row. -/
def content (fs : Taken) : List UInt8 := fs.flatMap Prod.snd

theorem content_concat (fs : Taken) (h : Header) (x : List UInt8) :
    content (fs ++ [(h, x)]) = content fs ++ x := by
  simp [content]

theorem compressed_append {fs : Taken} (h : fs ≠ []) (gs : Taken) :
    compressed (fs ++ gs) = compressed fs := by
  cases fs with
  | nil => exact absurd rfl h
  | cons f fs => rfl

end Taken

variable {F : Flate}

/-- A moment of a run, before a round of `receive`: the receiver, the locals of the call and the
extensions. The vector of the call and the data frames it has taken are kept with it. -/
structure Moment (F : Flate) where
  receiver : Receiver
  locals : Locals
  exts : List (Deflate F)
  vector : List UInt8
  frames : Taken

namespace Moment

/-- The beginning of a call. -/
def start (r : Receiver) (exts : List (Deflate F)) (m : List UInt8) : Moment F :=
  ⟨r, .start m, exts, m, []⟩

/-- The data frames that the call has taken after the next round. -/
def taken (s : Moment F) : Taken := s.frames ++ (s.receiver.takenFrame s.locals).toList

/-- The next round may end in this way. -/
def Yields (s : Moment F) (out : Round) (exts : List (Deflate F)) : Prop :=
  (s.receiver.receiveRound s.locals).Yields s.exts (some out) exts

/-- If the extension waits for a last fragment, the next round takes it. -/
def Steady (s : Moment F) : Prop :=
  (∃ d ∈ s.exts, d.awaitLastFragment = true) →
    ∃ h x, s.receiver.takenFrame s.locals = some (h, x) ∧ h.opcode = .continue ∧ h.fin = true

end Moment

/-- Runs of calls, one after the other and whatever they return; the list has the moments before
the rounds that returned. The extensions may be used by the sender at any moment. -/
inductive Calls (s₀ : Moment F) : List (Moment F) → Moment F → Prop
  | refl : Calls s₀ [] s₀
  | round {returned : List (Moment F)} {s : Moment F} {r' : Receiver} {l' : Locals}
      {es' : List (Deflate F)} (h : Calls s₀ returned s) (hr : s.Yields (.again r' l') es') :
      Calls s₀ returned ⟨r', l', es', s.vector, s.taken⟩
  | call {returned : List (Moment F)} {s : Moment F} {result : Except Error Incoming}
      {r' : Receiver} {m' : List UInt8} {es' : List (Deflate F)} (h : Calls s₀ returned s)
      (hr : s.Yields (.ret result r' m') es') (m : List UInt8) :
      Calls s₀ (s :: returned) (.start r' es' m)
  | encode {returned : List (Moment F)} {s : Moment F} {header : Header} {data : Storage}
      {enc : Encoded (List (Deflate F))} (h : Calls s₀ returned s)
      (he : Extension.encodeAll s.exts header data = some enc) :
      Calls s₀ returned { s with exts := enc.ext }

/-- The extension waits for a last fragment only in a compressed message of the current call. -/
structure Moment.InStep (s : Moment F) : Prop where
  hasExtensions : s.receiver.hasExtensions = true
  messageLen : s.locals.messageLen = s.vector.length
  first : s.locals.firstFragmentOpcode = none ↔ s.frames = []
  plain : s.frames.compressed = false → s.locals.message = s.vector ++ s.frames.content
  exts : ∃ d, s.exts = [d] ∧
    (d.awaitLastFragment = true → s.locals.message ≠ [] ∧ s.frames.compressed = true)

namespace Moment

variable {s : Moment F} {r' : Receiver} {es' : List (Deflate F)}

theorem inStep_start {r : Receiver} (hx : r.hasExtensions = true) {d : Deflate F}
    (hd : d.awaitLastFragment = false) (m : List UInt8) : (start r [d] m).InStep where
  hasExtensions := hx
  messageLen := rfl
  first := iff_of_true rfl rfl
  plain := fun _ => (List.append_nil m).symm
  exts := ⟨d, rfl, fun h => by rw [hd] at h; cases h⟩

end Moment

/-! ## One step -/

theorem Deflate.awaitLastFragment_encode {self : Deflate F} {header : Header} {data : Storage}
    {enc : Encoded (Deflate F)} (h : self.encode header data = some enc) :
    enc.ext.awaitLastFragment = self.awaitLastFragment := by
  unfold encode at h
  split_ifs at h
  · cases h
    rfl
  · split at h
    · cases h
    · cases h
      rfl
    · split_ifs at h
      · cases h
        rfl
      · cases h
        rfl
  · cases h
    rfl

theorem Deflate.rsv1_of_awaitLastFragment {self : Deflate F} {header : Header} {data : List UInt8}
    (hd : self.awaitLastFragment = false) (hfin : header.fin = false)
    (h : (self.decode header data).ext.awaitLastFragment = true) :
    header.rsv1 = true ∧ data ≠ [] := by
  unfold decode at h
  split_ifs at h with h₁ h₂ h₃ h₄
  · rw [hd] at h
    cases h
  · exact ⟨h₂.2, by simpa using h₁⟩
  · rw [hfin] at h₃
    exact absurd rfl h₃
  · rw [hfin] at h₄
    cases h₄.2.1
  · rw [hd] at h
    cases h

theorem exts_encodeAll {d : Deflate F} {header : Header} {data : Storage}
    {enc : Encoded (List (Deflate F))} (h : Extension.encodeAll [d] header data = some enc) :
    ∃ d', enc.ext = [d'] ∧ d'.awaitLastFragment = d.awaitLastFragment := by
  rw [Extension.encodeAll] at h
  rcases he : Extension.encode d header data with _ | e <;> rw [he] at h
  · cases h
  · have hflag := Deflate.awaitLastFragment_encode he
    dsimp only at h
    rcases hres : e.result with x | u <;> rw [hres] at h <;> cases h <;> exact ⟨_, rfl, hflag⟩

namespace Moment

variable {s : Moment F} {r' : Receiver} {es' : List (Deflate F)}

theorem InStep.encode (hi : s.InStep) {header : Header} {data : Storage}
    {enc : Encoded (List (Deflate F))} (h : Extension.encodeAll s.exts header data = some enc) :
    InStep { s with exts := enc.ext } := by
  obtain ⟨d, hd, hawait⟩ := hi.exts
  rw [hd] at h
  obtain ⟨d', hd', hflag⟩ := exts_encodeAll h
  exact ⟨hi.hasExtensions, hi.messageLen, hi.first, hi.plain, d', hd', by rwa [hflag]⟩

/-- What a data frame does to the extension and the call, one case for each of its places. -/
inductive Data (s : Moment F) (d : Deflate F) (h : Header) (x : List UInt8) : Step (Deflate F) → Prop
  | unexpected (hp : place s.locals.firstFragmentOpcode h = .unexpected) :
      Data s d h x (.ret (.error (.unexpectedOpCode h.opcode)) ⟨[], false, [d], []⟩
        (s.locals.message ++ x))
  | intermediate (hp : place s.locals.firstFragmentOpcode h = .intermediate) :
      Data s d h x (.again ⟨[], false, [d], []⟩ (s.locals.append h x))
  | initial (hp : place s.locals.firstFragmentOpcode h = .initial) :
      Data s d h x (.again ⟨[], false, [(d.decode h (s.locals.message ++ x)).ext], []⟩
        { s.locals.append h x with firstFragmentOpcode := some h.opcode })
  | last {oc : OpCode} (hp : place s.locals.firstFragmentOpcode h = .last oc) :
      Data s d h x (.ret
        (arrived F (d.wants h (s.locals.message ++ x)) oc s.locals.messageLen
          (s.locals.message ++ x)).1
        ⟨[], false, [(d.decode { h with payloadLen := (s.locals.message ++ x).length }
          (s.locals.message ++ x)).ext], []⟩
        (arrived F (d.wants h (s.locals.message ++ x)) oc s.locals.messageLen
          (s.locals.message ++ x)).2)
  | single (hp : place s.locals.firstFragmentOpcode h = .single) :
      Data s d h x (.ret
        (arrived F (d.wants h (s.locals.message ++ x)) h.opcode s.locals.messageLen
          (s.locals.message ++ x)).1
        ⟨[], false, [(d.decode h (s.locals.message ++ x)).ext], []⟩
        (arrived F (d.wants h (s.locals.message ++ x)) h.opcode s.locals.messageLen
          (s.locals.message ++ x)).2)

theorem InStep.data (hi : s.InStep) {d : Deflate F} (hd : s.exts = [d]) (h : Header)
    (x : List UInt8) :
    s.Data d h x (Feed.dataStep s.receiver.config s.exts h (s.locals.append h x)) := by
  have hx : s.receiver.config.hasExtensions = true := hi.hasExtensions
  rw [hd, Feed.dataStep]
  rcases hp : place s.locals.firstFragmentOpcode h with _ | _ | _ | oc | _
  all_goals have hp' : place (s.locals.append h x).firstFragmentOpcode h = _ := hp
  · rw [Feed.onData, hp']
    exact .unexpected hp
  · have hsp := place_spec s.locals.firstFragmentOpcode h
    rw [hp] at hsp
    rw [Feed.onData_initial hx _ rfl hp' hsp.2.2]
    exact .initial hp
  · rw [Feed.onData, hp']
    exact .intermediate hp
  · rw [Feed.onData_last hx _ rfl hp']
    exact .last hp
  · rw [Feed.onData_single hx _ rfl hp']
    exact .single hp

/-- A round that takes no data frame. -/
inductive Idle (s : Moment F) : Round → Prop
  | again {r' : Receiver} (hcfg : r'.config = s.receiver.config) : Idle s (.again r' s.locals)
  | ret {result : Except Error Incoming} {r' : Receiver} {m' : List UInt8}
      (hcfg : r'.config = s.receiver.config)
      (he : ∀ e, result = .error e → e.isExtension = false)
      (hdata : ∀ x, result ≠ .ok (.data x)) : Idle s (.ret result r' m')

theorem idle_error {e : Error} {m' : List UInt8} (hcfg : r'.config = s.receiver.config)
    (he : e.isExtension = false) : s.Idle (.ret (.error e) r' m') := by
  refine .ret hcfg (fun e' he' => ?_) (fun x hx => by cases hx)
  cases he'
  exact he

/-- **What a round does to the extension and the call**: nothing without a data frame, and what the frame
does with one. -/
theorem InStep.round_cases (hi : s.InStep) {d : Deflate F} (hd : s.exts = [d]) {out : Round}
    (hr : s.Yields out es') :
    (s.receiver.takenFrame s.locals = none ∧ es' = s.exts ∧ s.Idle out) ∨
      ∃ r₁ h x step, s.receiver.takenFrame s.locals = some (h, x) ∧
        r₁.config = s.receiver.config ∧ s.Data d h x step ∧ out = step.round r₁ ∧
        es' = step.exts := by
  rcases Receiver.receiveRound_cases hr with ⟨hc, h, rfl⟩ | ⟨-, round, h, ht⟩
  · cases h
    exact .inl ⟨by rw [Receiver.takenFrame, if_pos hc], rfl, idle_error rfl rfl⟩
  obtain rfl := Option.some.inj h
  cases ht with
  | failed hcfg hno he => exact .inl ⟨hno, rfl, idle_error hcfg he⟩
  | broken hcfg hno he => exact .inl ⟨hno, rfl, idle_error hcfg he⟩
  | control hcfg hno => exact .inl ⟨hno, rfl, .again hcfg⟩
  | pong hcfg hno =>
    exact .inl ⟨hno, rfl, .ret hcfg (fun e he => by cases he) (fun x hx => by cases hx)⟩
  | close hcfg hno =>
    exact .inl ⟨hno, rfl, .ret hcfg (fun e he => by cases he) (fun x hx => by cases hx)⟩
  | data hcfg hh => exact .inr ⟨_, _, _, _, hh, hcfg, hi.data hd _ _, rfl, rfl⟩

theorem taken_of_none (hno : s.receiver.takenFrame s.locals = none) : s.taken = s.frames := by
  rw [taken, hno]
  exact List.append_nil _

theorem taken_of_some {h : Header} {x : List UInt8}
    (hh : s.receiver.takenFrame s.locals = some (h, x)) : s.taken = s.frames ++ [(h, x)] := by
  rw [taken, hh]
  rfl

/-- **A round that goes on keeps the extension and the call in step.** -/
theorem InStep.again (hi : s.InStep) {l' : Locals} (hr : s.Yields (.again r' l') es') :
    InStep ⟨r', l', es', s.vector, s.taken⟩ := by
  obtain ⟨d, hd, hawait⟩ := hi.exts
  rcases hi.round_cases hd hr with
    ⟨hno, rfl, hidle⟩ | ⟨r₁, h, x, step, hh, hcfg, hdata, hout, rfl⟩
  · cases hidle with
    | again hcfg =>
      rw [taken_of_none hno]
      exact ⟨(congrArg Config.hasExtensions hcfg).trans hi.hasExtensions, hi.messageLen, hi.first,
        hi.plain, d, hd, hawait⟩
  · have hx : r₁.hasExtensions = true :=
      (congrArg Config.hasExtensions hcfg).trans hi.hasExtensions
    have htaken := taken_of_some hh
    have hsp := place_spec s.locals.firstFragmentOpcode h
    cases hdata with
    | unexpected => cases hout
    | last => cases hout
    | single => cases hout
    | intermediate hp =>
      cases hout
      rw [hp] at hsp
      obtain ⟨⟨oc, hoc⟩, -⟩ := hsp
      have hne : s.frames ≠ [] := fun hnil => by
        rw [hi.first.mpr hnil] at hoc
        cases hoc
      have hcomp : s.taken.compressed = s.frames.compressed := by
        rw [htaken, Taken.compressed_append hne]
      refine ⟨hx, hi.messageLen, ?_, fun hc => ?_, d, rfl, fun ha => ?_⟩
      · exact iff_of_false (fun hn => by cases hoc.symm.trans hn) (by rw [htaken]; simp)
      · rw [htaken, Taken.content_concat, ← List.append_assoc, ← hi.plain (hcomp ▸ hc)]
        rfl
      · exact ⟨fun hnil => (hawait ha).1 (List.append_eq_nil_iff.mp hnil).1,
          hcomp.trans (hawait ha).2⟩
    | initial hp =>
      cases hout
      rw [hp] at hsp
      have hnil : s.frames = [] := hi.first.mp hsp.1
      have hdf : d.awaitLastFragment = false := Bool.eq_false_iff.mpr fun ha => by
        have hcomp := (hawait ha).2
        rw [hnil] at hcomp
        cases hcomp
      rw [hnil, List.nil_append] at htaken
      refine ⟨hx, hi.messageLen, ?_, fun _ => ?_, _, rfl, fun ha => ?_⟩
      · exact iff_of_false (fun hn => by cases hn) (by rw [htaken]; simp)
      · have hplain := hi.plain (by rw [hnil]; rfl)
        rw [hnil] at hplain
        change s.locals.message ++ x = s.vector ++ s.taken.content
        rw [htaken, hplain]
        simp [Taken.content]
      · obtain ⟨hrsv, hne⟩ := Deflate.rsv1_of_awaitLastFragment hdf hsp.2.2 ha
        exact ⟨hne, by rw [htaken]; exact hrsv⟩

theorem InStep.awaitLastFragment (hi : s.InStep) {d : Deflate F} (hd : s.exts = [d])
    (hc : s.frames.compressed = false) : d.awaitLastFragment = false := by
  obtain ⟨d', hd', hawait⟩ := hi.exts
  obtain rfl : d' = d := by simpa using hd'.symm.trans hd
  refine Bool.eq_false_iff.mpr fun ha => ?_
  cases hc.symm.trans (hawait ha).2

/-- **A steady call that returns leaves the extension waiting for nothing.** -/
theorem InStep.ret (hi : s.InStep) (hsteady : s.Steady) {result : Except Error Incoming}
    {m' : List UInt8} (hr : s.Yields (.ret result r' m') es') :
    r'.hasExtensions = true ∧ ∃ d, es' = [d] ∧ d.awaitLastFragment = false := by
  obtain ⟨d, hd, hawait⟩ := hi.exts
  have hmem : d ∈ s.exts := by
    rw [hd]
    exact List.mem_singleton_self d
  rcases hi.round_cases hd hr with
    ⟨hno, rfl, hidle⟩ | ⟨r₁, h, x, step, hh, hcfg, hdata, hout, rfl⟩
  · cases hidle with
    | ret hcfg =>
      refine ⟨(congrArg Config.hasExtensions hcfg).trans hi.hasExtensions, d, hd,
        Bool.eq_false_iff.mpr fun ha => ?_⟩
      obtain ⟨h, x, hh, -⟩ := hsteady ⟨d, hmem, ha⟩
      cases hno.symm.trans hh
  · have hx : r₁.hasExtensions = true :=
      (congrArg Config.hasExtensions hcfg).trans hi.hasExtensions
    have hsp := place_spec s.locals.firstFragmentOpcode h
    cases hdata with
    | intermediate => cases hout
    | initial => cases hout
    | unexpected hp =>
      cases hout
      refine ⟨hx, d, rfl, Bool.eq_false_iff.mpr fun ha => ?_⟩
      -- a message is open, so a last fragment would not be unexpected
      obtain ⟨h', x', hh', hoc, -⟩ := hsteady ⟨d, hmem, ha⟩
      cases hh.symm.trans hh'
      have hnil : s.frames = [] := by
        refine hi.first.mp ?_
        cases hf : s.locals.firstFragmentOpcode with
        | none => rfl
        | some oc =>
          unfold place at hp
          rw [hf, if_pos hoc] at hp
          dsimp only at hp
          split_ifs at hp
      have hcomp := (hawait ha).2
      rw [hnil] at hcomp
      cases hcomp
    | last hp =>
      cases hout
      rw [hp] at hsp
      refine ⟨hx, _, rfl, ?_⟩
      by_cases hnil : s.locals.message ++ x = []
      · have hdf : d.awaitLastFragment = false := Bool.eq_false_iff.mpr fun ha =>
          (hawait ha).1 (List.append_eq_nil_iff.mp hnil).1
        rw [hnil]
        exact hdf
      · exact d.awaitLastFragment_last hsp.2.1 hsp.2.2 hnil
    | single hp =>
      cases hout
      rw [hp] at hsp
      refine ⟨hx, _, rfl, ?_⟩
      rw [d.awaitLastFragment_single hsp.2.1 hsp.2.2]
      exact hi.awaitLastFragment hd (by rw [hi.first.mp hsp.1]; rfl)

theorem InStep.result (hi : s.InStep) {result : Except Error Incoming} {m' : List UInt8}
    (hr : s.Yields (.ret result r' m') es') (hc : s.taken.compressed = false) :
    (∀ e, result = .error e → e.isExtension = false) ∧
      ∀ x, result = .ok (.data x) →
        m' = s.vector ++ s.taken.content ∧ x.len = s.taken.content.length := by
  obtain ⟨d, hd, hawait⟩ := hi.exts
  rcases hi.round_cases hd hr with
    ⟨-, -, hidle⟩ | ⟨r₁, h, x, step, hh, -, hdata, hout, -⟩
  · cases hidle with
    | ret _ he hdata => exact ⟨he, fun x hx => absurd hx (hdata x)⟩
  · have htaken := taken_of_some hh
    have hframes : s.frames.compressed = false := by
      cases hf : s.frames with
      | nil => rfl
      | cons f fs =>
        rw [htaken, Taken.compressed_append (by rw [hf]; simp)] at hc
        rwa [hf] at hc
    have hdf := hi.awaitLastFragment hd hframes
    have hmsg : s.locals.message ++ x = s.vector ++ s.taken.content := by
      rw [htaken, Taken.content_concat, ← List.append_assoc, ← hi.plain hframes]
    have harr : ∀ {oc}, d.wants h (s.locals.message ++ x) = false →
        (∀ e, (arrived F (d.wants h (s.locals.message ++ x)) oc s.locals.messageLen
            (s.locals.message ++ x)).1 = .error e → e.isExtension = false) ∧
          ∀ y, (arrived F (d.wants h (s.locals.message ++ x)) oc s.locals.messageLen
              (s.locals.message ++ x)).1 = .ok (.data y) →
            (arrived F (d.wants h (s.locals.message ++ x)) oc s.locals.messageLen
              (s.locals.message ++ x)).2 = s.vector ++ s.taken.content ∧
              y.len = s.taken.content.length := by
      intro oc hw
      rw [hw, arrived, if_neg Bool.false_ne_true, hmsg, hi.messageLen, wrappingSub_append]
      refine ⟨fun e he => (by cases he), fun y hy => ⟨rfl, ?_⟩⟩
      cases hy
      unfold Data.ofOpCode
      split_ifs <;> rfl
    have hsp := place_spec s.locals.firstFragmentOpcode h
    cases hdata with
    | intermediate => cases hout
    | initial => cases hout
    | unexpected =>
      cases hout
      exact ⟨fun e he => (by cases he; rfl), fun x hx => (by cases hx)⟩
    | last hp =>
      cases hout
      rw [hp] at hsp
      exact harr (by simp [Deflate.wants, hsp.2.1, hdf])
    | single hp =>
      cases hout
      rw [hp] at hsp
      have hrsv : h.rsv1 = false := by
        rw [htaken, hi.first.mp hsp.1] at hc
        exact hc
      exact harr (by simp [Deflate.wants, hsp.2.1, hrsv])

end Moment

/-- **The extension and the calls stay in step** in steady runs. -/
theorem Calls.inStep {r : Receiver} (hx : r.hasExtensions = true) {d : Deflate F}
    (hd : d.awaitLastFragment = false) {m : List UInt8} {returned : List (Moment F)} {s : Moment F}
    (h : Calls (.start r [d] m) returned s) (hsteady : ∀ t ∈ returned, t.Steady) : s.InStep := by
  induction h with
  | refl => exact Moment.inStep_start hx hd m
  | round _ hr ih => exact (ih hsteady).again hr
  | call _ hr m ih =>
    obtain ⟨ht, hts⟩ := List.forall_mem_cons.mp hsteady
    obtain ⟨hx', d', rfl, hd'⟩ := (ih hts).ret ht hr
    exact Moment.inStep_start hx' hd' m
  | encode _ he ih => exact (ih hsteady).encode he

theorem Calls.exists_ret {s₀ : Moment F} {returned : List (Moment F)} {fuel : ℕ} {s : Moment F}
    (h : Calls s₀ returned s) {w w' : World (List (Deflate F))} (hw : w.shared = s.exts)
    {result : Except Error Incoming} {r' : Receiver} {m' : List UInt8}
    (hr : (s.receiver.receiveLoop fuel s.locals).run w = (some ⟨result, r', m'⟩, w')) :
    ∃ t, Calls s₀ returned t ∧ t.vector = s.vector ∧ t.Yields (.ret result r' m') w'.shared := by
  induction fuel generalizing s w with
  | zero => cases hr
  | succ fuel ih =>
    have hy := Fiber.yields_run (s.receiver.receiveRound s.locals) w
    rw [hw] at hy
    rw [Receiver.receiveLoop] at hr
    simp only [Fiber.run_bind] at hr
    rcases hround : (s.receiver.receiveRound s.locals).run w with ⟨_ | ⟨r₁, l₁⟩ | ⟨res, r₁, m₁⟩, w₁⟩
      <;> rw [hround] at hr hy
    · cases hr
    · exact ih (s := ⟨r₁, l₁, w₁.shared, s.vector, s.taken⟩) (h.round hy) rfl hr
    · cases hr
      exact ⟨s, h, rfl, hy⟩

/-- **Messages that are not compressed are not inflated.** A receiver whose only extension is
deflate, which is not waiting for a last fragment, and a run of calls, with any reader and writer
and whatever the calls return, in which no call returned while the extension was waiting for a last
fragment, other than by taking it. Whenever a message begins, the extension is not waiting. If a
call returns, and the first data frame it took, if any, has RSV1 clear, it does not return an error
of the extension, and data that it returns is the payloads in a row, after what the vector held.
What a call of `receive` returns, one of its rounds returns. -/
theorem never_inflated {r : Receiver} (hx : r.hasExtensions = true) {d : Deflate F}
    (hd : d.awaitLastFragment = false) (m : List UInt8) {returned : List (Moment F)} {s : Moment F}
    (h : Calls (.start r [d] m) returned s) (hsteady : ∀ t ∈ returned, t.Steady) :
    (s.frames = [] → ∀ e ∈ s.exts, e.awaitLastFragment = false) ∧
    (∀ result r' m' es', s.Yields (.ret result r' m') es' → s.taken.compressed = false →
      (∀ e, result = .error e → e.isExtension = false) ∧
        ∀ x, result = .ok (.data x) →
          m' = s.vector ++ s.taken.content ∧ x.len = s.taken.content.length) ∧
    ∀ r₁ es₁ m₁ (w w' : World (List (Deflate F))) result r' m', s = .start r₁ es₁ m₁ →
      w.shared = es₁ → (r₁.receive m₁).run w = (some ⟨result, r', m'⟩, w') →
      ∃ t, Calls (.start r [d] m) returned t ∧ t.vector = m₁ ∧
        t.Yields (.ret result r' m') w'.shared := by
  have hi := h.inStep hx hd hsteady
  refine ⟨fun hnil e he => ?_, fun result r' m' es' hr hc => hi.result hr hc, ?_⟩
  · obtain ⟨d', hd', -⟩ := hi.exts
    rw [hd', List.mem_singleton] at he
    rw [he]
    exact hi.awaitLastFragment hd' (by rw [hnil]; rfl)
  · intro r₁ es₁ m₁ w w' result r' m' hs hw hr
    subst hs
    exact h.exists_ret hw hr

/-- A server that gets the compressed text `a` in two frames, and the text `b`. -/
def mixedServer : Builder (Deflate .stored) :=
  deflateServer ([0x41, 1, 0] ++ [0x80, 6] ++ compressedA.drop 1 ++ [0x81, 1, 98])

/-- The extension after the first fragment. -/
def Deflate.storedWaiting : Deflate .stored := { Deflate.stored with awaitLastFragment := true }

/-- The text `b` after the compressed text is not inflated. -/
theorem never_inflated_mixed :
    ∃ t s r' es', Calls (.start mixedServer.finish.2.1 [Deflate.stored] []) [t] s ∧ t.Steady ∧
      s.Yields (.ret (.ok (.data (.text 1))) r' [98]) es' ∧
      [98] = s.vector ++ s.taken.content ∧ (Data.text 1).len = s.taken.content.length := by
  have hrounds : ∃ r₁ l₁, (Moment.start mixedServer.finish.2.1 [Deflate.stored] []).Yields
        (.again r₁ l₁) [Deflate.storedWaiting] ∧
      (∃ h x, r₁.takenFrame l₁ = some (h, x) ∧ h.opcode = .continue ∧ h.fin = true) ∧
      ∃ r₂ w₂, (r₁.receiveRound l₁).run ⟨[], false, [], [Deflate.storedWaiting], []⟩ =
          (some (.ret (.ok (.data (.text 1))) r₂ [97]), w₂) ∧
        (Moment.start r₂ w₂.shared []).taken.compressed = false ∧
      ∃ r' w', (r₂.receiveRound (.start [])).run w₂ =
          (some (.ret (.ok (.data (.text 1))) r' [98]), w') :=
    ⟨_, _, Fiber.yields_run _ (mixedServer.world []), ⟨_, _, rfl, rfl, rfl⟩, _, _, rfl, rfl, _, _, rfl⟩
  obtain ⟨r₁, l₁, h₁, hlast, r₂, w₂, hrun₂, hc, r', w', hrun₃⟩ := hrounds
  have h₂ := Fiber.yields_run (r₁.receiveRound l₁) ⟨[], false, [], [Deflate.storedWaiting], []⟩
  have h₃ := Fiber.yields_run (r₂.receiveRound (.start [])) w₂
  rw [hrun₂] at h₂
  rw [hrun₃] at h₃
  have hcalls := (Calls.refl.round h₁).call h₂ []
  have hsteady : Moment.Steady (F := .stored) ⟨r₁, l₁, [Deflate.storedWaiting], [],
      (Moment.start mixedServer.finish.2.1 [Deflate.stored] []).taken⟩ := fun _ => hlast
  obtain ⟨-, hret, -⟩ := never_inflated rfl rfl [] hcalls (List.forall_mem_singleton.mpr hsteady)
  obtain ⟨hm, hlen⟩ := (hret _ _ _ _ h₃ hc).2 _ rfl
  exact ⟨_, _, r', _, hcalls, hsteady, h₃, hm, hlen⟩

/-- A server that gets the first fragment of a compressed message, a pong, and then the text `ab` in
two fragments that are not compressed. -/
def interruptedServer : Builder (Deflate .stored) :=
  deflateServer ([0x41, 1, 120] ++ [0x8A, 0] ++ [0x01, 1, 97] ++ [0x80, 1, 98])

/-- The call that returns the pong leaves the extension waiting: the next call takes the frames of
the text `ab`, which is inflated, and fails. -/
theorem not_never_inflated :
    ∃ r₁ w₁, (interruptedServer.finish.2.1.receive []).run (interruptedServer.world []) =
        (some ⟨.ok (.pong []), r₁, [120]⟩, w₁) ∧
      (∃ d ∈ w₁.shared, d.awaitLastFragment = true) ∧
      (∃ h, r₁.takenFrame (.start []) = some (h, [97]) ∧ h.opcode = .text ∧ h.rsv1 = false) ∧
      ∃ r₂ w₂, (r₁.receive []).run w₁ =
        (some ⟨.error (.extension ⟨"corrupt deflate stream"⟩), r₂, [97, 98] ++ emptyBlock⟩, w₂) :=
  ⟨_, _, rfl, ⟨_, List.mem_singleton_self _, rfl⟩, ⟨_, rfl, rfl, rfl⟩, _, _, rfl⟩

end Soketto
