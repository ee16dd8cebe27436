import Soketto.Connection.Read
import Soketto.Connection.Send

/-!
# Reads that fail

A read enlarges the buffer with zeros before it asks the source for bytes, and cuts them off after
it. When the source reports a failure they stay.

* `Receiver.Resumes`: after a read has failed, `receiveHeader` goes on as if it had not.
* `Receiver.FailsInHeader`: a read fails before all bytes of a header are there.
* **`failed_read_iff`**: the buffer is left as it was unless a failure is next, and `receiveHeader`
  goes on unless a read has failed in a header.
-/

set_option autoImplicit false

namespace Soketto

open Incremental Chunked

theorem ofIo_injective : Function.Injective Error.ofIo := by
  intro e e' h
  cases e <;> cases e' <;> cases h <;> rfl

namespace Receiver

/-- A read fails before all bytes of a header are there. -/
def FailsInHeader (self : Receiver) : Prop :=
  ¬Clean self.reader ∧ ∃ n,
    self.codec.decodeHeader.run (self.buffer ++ beforeFailure self.reader) = .ok (.needMore n)

/-- What `receiveHeader` returns, and the bytes that are still to come. -/
def headerAndRest (self : Receiver) : Option (Except Error Header × List UInt8) :=
  self.receiveHeader.map fun x => (x.1, x.2.stream)

/-- When `receiveHeader` returns an I/O error, no byte to come is lost or added, and calling it
again has the result it would have had without the failure. -/
def Resumes (self : Receiver) : Prop :=
  ∀ e r', self.receiveHeader = some (.error (.ofIo e), r') →
    r'.stream = self.stream ∧
    r'.headerAndRest = { self with reader := skipFailure self.reader }.headerAndRest

/-- **What an I/O error leaves**: the zeros of the read that failed; or nothing new, when the source
was at its end. -/
theorem receiveHeaderLoop_io (fuel : ℕ) {self r' : Receiver} {e : IoError}
    (h : receiveHeaderLoop fuel self = some (.error (.ofIo e), r')) :
    ∃ n, self.codec.decodeHeader.run (self.buffer ++ beforeFailure self.reader) = .ok (.needMore n) ∧
      ((¬Clean self.reader ∧ r'.stream.length = self.stream.length + n) ∨
        (Clean self.reader ∧ Clean r'.reader ∧ e = .unexpectedEof ∧ r'.codec = self.codec ∧
          r'.stream = self.stream)) := by
  induction fuel generalizing self with
  | zero => cases h
  | succ fuel ih =>
    rw [receiveHeaderLoop] at h
    rcases hd : self.codec.decodeHeader.run self.buffer with e' | ⟨header, off⟩ | n <;> rw [hd] at h
    · cases e <;> cases h
    · cases h
    · dsimp only at h
      rcases hr : Soketto.read self.reader self.buffer n with ⟨e' | u, reader, buffer⟩ <;>
        rw [hr] at h
      · obtain ⟨he, rfl⟩ := Prod.mk.inj (Option.some.inj h)
        obtain rfl : e' = e := ofIo_injective (Except.error.inj he)
        rcases read_eq_error.mp hr with ⟨hread, rfl⟩ | ⟨hread, rfl, rfl⟩
        · obtain ⟨hbefore, hclean, hbytes⟩ := read_error hread
          refine ⟨n, by rw [hbefore, List.append_nil, hd], Or.inl ⟨hclean, ?_⟩⟩
          simp only [stream, List.length_append, List.length_replicate, hbytes]
          omega
        · obtain ⟨hbefore, hclean', hnil⟩ := read_ok_failure hread
          have hpos := (Codec.exact_decodeHeader self.codec).pos hd
          have hclean := hnil hpos rfl
          have hbytes := (read_ok hread).1
          rw [hclean.beforeFailure, (read_ok hread).2.2 hpos rfl, List.append_nil]
          refine ⟨n, hd, Or.inr ⟨hclean, hclean'.mpr hclean, rfl, rfl, ?_⟩⟩
          rw [stream, stream, hbytes, List.nil_append]
      · obtain ⟨got, hne, hread, rfl⟩ := read_eq_ok.mp hr
        obtain ⟨hbefore, hclean, -⟩ := read_ok_failure hread
        have hbytes := (read_ok hread).1
        obtain ⟨m, hm, hcases⟩ := ih h
        have hstream : ({ self with reader, buffer := self.buffer ++ got } : Receiver).stream =
            self.stream := by
          simp only [stream, hbytes, List.append_assoc]
        rw [hstream, hclean] at hcases
        refine ⟨m, ?_, hcases⟩
        rw [hbefore, ← List.append_assoc]
        exact hm

/-- **A read that fails in a header** ends `receiveHeader`. -/
theorem receiveHeaderLoop_fails (fuel : ℕ) {self : Receiver} (hf : (bytes self.reader).length < fuel)
    (h : self.FailsInHeader) : ∃ e r', receiveHeaderLoop fuel self = some (.error (.ofIo e), r') := by
  induction fuel generalizing self with
  | zero => exact absurd hf (Nat.not_lt_zero _)
  | succ fuel ih =>
    obtain ⟨hclean, n, hn⟩ := h
    have hx := Codec.exact_decodeHeader self.codec
    rw [receiveHeaderLoop]
    rcases hd : self.codec.decodeHeader.run self.buffer with e | ⟨header, off⟩ | m
    · cases (hx.error hd _).symm.trans hn
    · cases (hx.done_append hd _).symm.trans hn
    · dsimp only
      rcases hr : Soketto.read self.reader self.buffer m with ⟨e | u, reader, buffer⟩
      · exact ⟨e, _, rfl⟩
      · obtain ⟨got, hne, hread, rfl⟩ := read_eq_ok.mp hr
        obtain ⟨hbefore, hclean', -⟩ := read_ok_failure hread
        have hbytes := congrArg List.length (read_ok hread).1
        have hpos : 0 < got.length := List.length_pos_iff.mpr hne
        rw [List.length_append] at hbytes
        refine ih (by dsimp only; omega) ⟨fun hc => hclean (hclean'.mp hc), n, ?_⟩
        rw [hbefore, ← List.append_assoc] at hn
        exact hn

/-- **When `receiveHeader` goes on after an I/O error.** -/
theorem resumes_iff (self : Receiver) : self.Resumes ↔ ¬self.FailsInHeader := by
  constructor
  · intro hres hfail
    obtain ⟨e, r', hr⟩ := receiveHeaderLoop_fails _ (Nat.lt_succ_self _) hfail
    obtain ⟨n, hn, hcases⟩ := receiveHeaderLoop_io _ hr
    have hpos := (Codec.exact_decodeHeader self.codec).pos hn
    rcases hcases with ⟨-, hlen⟩ | ⟨hclean, -⟩
    · rw [(hres e r' hr).1] at hlen
      omega
    · exact hfail.1 hclean
  · intro hfail e r' hr
    obtain ⟨n, hn, hcases⟩ := receiveHeaderLoop_io _ hr
    rcases hcases with ⟨hclean, -⟩ | ⟨hclean, hclean', rfl, hcodec, hstream⟩
    · exact absurd ⟨hclean, n, hn⟩ hfail
    · refine ⟨hstream, ?_⟩
      -- the source is at its end, and stays there
      have hrun : r'.config.codec.decodeHeader.run r'.stream = .ok (.needMore n) := by
        rw [hstream, stream, ← hclean.beforeFailure]
        change r'.codec.decodeHeader.run _ = _
        rw [hcodec]
        exact hn
      obtain ⟨r'', hr''⟩ := (receiveHeader_spec hclean').needMore hrun
      obtain ⟨m, -, hcases⟩ := receiveHeaderLoop_io (e := .unexpectedEof) _ hr''
      have hstream'' : r''.stream = r'.stream := by
        rcases hcases with ⟨hno, -⟩ | ⟨-, -, -, -, hs⟩
        · exact absurd hclean' hno
        · exact hs
      rw [hclean.skipFailure, headerAndRest, headerAndRest, hr, hr'']
      simp only [Option.map_some, hstream'', hstream]
      rfl

end Receiver

/-- **When a read that fails leaves no trace.** The buffer is left as it was unless a failure is next
and bytes are asked for; and after an I/O error `receiveHeader` goes on as if nothing had happened
unless a read has failed before all bytes of a header were there. -/
theorem failed_read_iff (reader : Source UInt8) (dest : List UInt8) (max : ℕ) (r : Receiver) :
    ((∀ e reader' dest', Soketto.read reader dest max = (.error e, reader', dest') →
      dest' = dest) ↔ ¬(failsNext reader = true ∧ 0 < max)) ∧
    (r.Resumes ↔ ¬r.FailsInHeader) := by
  refine ⟨⟨fun h => ?_, fun h e reader' dest' hr => ?_⟩, r.resumes_iff⟩
  · rintro ⟨hnext, hpos⟩
    obtain ⟨e, s', hread⟩ := (read_error_iff max reader).mpr hnext
    have hr : Soketto.read reader dest max = (.error e, s', dest ++ List.replicate max 0) :=
      read_eq_error.mpr (.inl ⟨hread, rfl⟩)
    have hlen := congrArg List.length (h e s' _ hr)
    rw [List.length_append, List.length_replicate] at hlen
    omega
  · rcases read_eq_error.mp hr with ⟨hread, rfl⟩ | ⟨-, -, rfl⟩
    · have hnext := (read_error_iff max reader).mp ⟨e, reader', hread⟩
      obtain rfl : max = 0 := Nat.eq_zero_of_not_pos fun hpos => h ⟨hnext, hpos⟩
      exact List.append_nil _
    · rfl

/-- A server whose first read fails, before a text. -/
def failingRead : Builder Empty := Builder.new [.error (.other 5), .data [0x81, 1, 97]] .server

/-- The server with the same input when no read fails. -/
def steadyRead : Builder Empty := Builder.new [.data [0x81, 1, 97]] .server

/-- The zeros of the read that failed are taken for a frame, which the text should have been. -/
theorem not_failed_read :
    Soketto.read failingRead.socket [] 2 =
        (.error (.other 5), steadyRead.socket, [0, 0]) ∧
      (∃ r' w', (failingRead.finish.2.1.receive []).run (failingRead.world []) =
          (some ⟨.error (.io (.other 5)), r', []⟩, w') ∧
        ∃ r₂ w₂, (r'.receive []).run w' =
          (some ⟨.error (.unexpectedOpCode .continue), r₂, []⟩, w₂)) ∧
      ∃ r₂ w₂, (steadyRead.finish.2.1.receive []).run (steadyRead.world []) =
        (some ⟨.ok (.data (.text 1)), r₂, [97]⟩, w₂) :=
  ⟨rfl, ⟨_, _, rfl, _, _, rfl⟩, _, _, rfl⟩

end Soketto
