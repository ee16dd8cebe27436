import Soketto.Connection.Read
import Soketto.Handshake.Server
import Soketto.Lib.Search

/-!
# The search for the end of a head

After each read the server looks for the end of the head in what the read brought and in the four bytes
before it.

* `HasEnough`: the end of a head has been read, or 8192 bytes.
* `Server.readHeadWhole`: `readHead` with a search of everything after each read;
  **`readHead_eq_whole`**: it is the same.
* `Searching`: the loop before a read, `Searching.readHead`; **`Searching.bounds`**: what is searched
  is within the buffer.
* `Leaves`: the loop ends after the first read with which the server has enough; **`head_search`**.
-/

set_option autoImplicit false

namespace Soketto.Handshake

open Text Search
open Chunked (Source IoError bytes)

/-! ## Enough bytes -/

theorem headersTail_eq : headersTail = [13, 10, 13, 10] := by decide

theorem headersTail_ne_nil : headersTail ≠ [] := by
  rw [headersTail_eq]
  exact List.cons_ne_nil _ _

theorem containsTail_iff (bs : List UInt8) : containsTail bs = true ↔ headersTail <:+: bs := by
  induction bs with
  | nil => simp [containsTail, headersTail_ne_nil]
  | cons b bs ih =>
    rw [containsTail, Bool.or_eq_true, List.isPrefixOf_iff_prefix, ih, List.infix_cons_iff]

/-- The first 8192 bytes of the buffer have the end of a head in them, or the buffer is that long. -/
def HasEnough (buffer : List UInt8) : Prop :=
  headersTail <:+: buffer.take (min buffer.length maxHeadersSize) ∨ maxHeadersSize ≤ buffer.length

theorem not_hasEnough_nil : ¬HasEnough [] := by
  simp [HasEnough, headersTail_ne_nil, maxHeadersSize]

/-- **What was searched before may be skipped**, but for four bytes. -/
theorem containsTail_drop {b got : List UInt8} (hno : ¬HasEnough b) {skip : ℕ}
    (hskip : skip ≤ b.length - 4) (limit : ℕ) :
    containsTail (((b ++ got).take limit).drop skip) = containsTail ((b ++ got).take limit) := by
  obtain ⟨hno, hlt⟩ := not_or.mp hno
  rw [Nat.min_eq_left (by omega), List.take_length] at hno
  have hbefore : ¬ headersTail <:+: (b ++ got).take b.length := by rwa [List.take_left]
  rw [Bool.eq_iff_iff, containsTail_iff, containsTail_iff]
  exact infix_drop_iff hbefore (by rwa [headersTail_eq])

namespace Server

variable {E : Type}

/-- The server after `reader` gave it more bytes. -/
def received (s : Server E) (reader : Source UInt8) (got : List UInt8) : Server E :=
  { s with socket := { s.socket with reader }, buffer := s.buffer ++ got }

/-- `readHead` with a search of everything after each read. -/
def readHeadWhole : ℕ → Server E → Option (Except Error Unit × Server E)
  | 0, _ => none
  | fuel + 1, self =>
    match Soketto.read self.socket.reader self.buffer blockSize with
    | (.error e, reader, buffer) =>
      some (.error (.io e), { self with socket := { self.socket with reader }, buffer })
    | (.ok (), reader, buffer) =>
      let self := { self with socket := { self.socket with reader }, buffer }
      let limit := min buffer.length maxHeadersSize
      if containsTail (buffer.take limit) then some (.ok (), self)
      else if limit = maxHeadersSize then some (.ok (), self)
      else readHeadWhole fuel self

end Server

variable {E : Type} {s : Server E}

theorem not_hasEnough {b : List UInt8}
    (hno : ¬containsTail (b.take (min b.length maxHeadersSize)) = true)
    (hlt : ¬min b.length maxHeadersSize = maxHeadersSize) : ¬HasEnough b := by
  rw [containsTail_iff] at hno
  rintro (h | h)
  · exact hno h
  · omega

/-- **The search finds what a search of everything finds.** -/
theorem readHead_eq_whole (fuel : ℕ) {skip : ℕ} (hno : ¬HasEnough s.buffer)
    (hskip : skip ≤ s.buffer.length - 4) : Server.readHead fuel skip s = Server.readHeadWhole fuel s := by
  induction fuel generalizing s skip with
  | zero => rfl
  | succ fuel ih =>
    rw [Server.readHead, Server.readHeadWhole]
    rcases hread : Soketto.read s.socket.reader s.buffer blockSize with ⟨e | u, reader, buffer⟩
    · rfl
    · obtain ⟨got, -, -, rfl⟩ := read_eq_ok.mp hread
      dsimp only
      rw [containsTail_drop hno hskip]
      split_ifs with hfound hlimit
      · rfl
      · rfl
      · exact ih (not_hasEnough hfound hlimit) (le_refl _)

/-- **One round**, when the server did not have enough before: it has enough now, or goes on. -/
theorem readHead_step (fuel : ℕ) {skip : ℕ} (hno : ¬HasEnough s.buffer)
    (hskip : skip ≤ s.buffer.length - 4) {reader : Source UInt8} {got : List UInt8} (hgot : got ≠ [])
    (hread : Chunked.read blockSize s.socket.reader = (.ok got, reader)) :
    (HasEnough (s.buffer ++ got) ∧
        Server.readHead (fuel + 1) skip s = some (.ok (), s.received reader got)) ∨
      (¬HasEnough (s.buffer ++ got) ∧ Server.readHead (fuel + 1) skip s =
        Server.readHead fuel ((s.buffer ++ got).length - 4) (s.received reader got)) := by
  rw [Server.readHead, read_eq_ok.mpr ⟨got, hgot, hread, rfl⟩]
  dsimp only
  rw [containsTail_drop hno hskip]
  split_ifs with hfound hlimit
  · exact .inl ⟨.inl ((containsTail_iff _).mp hfound), rfl⟩
  · exact .inl ⟨.inr (by omega), rfl⟩
  · exact .inr ⟨not_hasEnough hfound hlimit, rfl⟩

/-! ## The bounds of the search -/

/-- The loop of `receiveRequest` before a read: how much is skipped, and the server. -/
inductive Searching (s : Server E) : ℕ → Server E → Prop
  | start : Searching s 0 { s with buffer := [] }
  | next {skip : ℕ} {t : Server E} {reader : Source UInt8} {buffer : List UInt8}
      (h : Searching s skip t)
      (hread : Soketto.read t.socket.reader t.buffer blockSize = (.ok (), reader, buffer))
      (hno : containsTail ((buffer.take (min buffer.length maxHeadersSize)).drop skip) = false)
      (hlt : min buffer.length maxHeadersSize ≠ maxHeadersSize) :
      Searching s (buffer.length - 4) { t with socket := { t.socket with reader }, buffer }

/-- **These are the states of the loop**: its run from the first of them goes on with its run from each of
them. -/
theorem Searching.readHead {skip : ℕ} {t : Server E} (h : Searching s skip t) :
    ∃ rounds, ∀ fuel, Server.readHead (fuel + rounds) 0 { s with buffer := [] } =
      Server.readHead fuel skip t := by
  induction h with
  | start => exact ⟨0, fun _ => rfl⟩
  | @next skip t reader buffer _ hread hno hlt ih =>
    obtain ⟨rounds, hrounds⟩ := ih
    refine ⟨rounds + 1, fun fuel => ?_⟩
    have hround : Server.readHead (fuel + 1) skip t = Server.readHead fuel (buffer.length - 4)
        { t with socket := { t.socket with reader }, buffer } := by
      rw [Server.readHead, hread]
      dsimp only
      rw [if_neg (Bool.eq_false_iff.mp hno), if_neg hlt]
    rw [← hround, ← hrounds (fuel + 1), Nat.add_assoc, Nat.add_comm 1 rounds]

theorem Searching.invariant {skip : ℕ} {t : Server E} (h : Searching s skip t) :
    ¬HasEnough t.buffer ∧ skip ≤ t.buffer.length - 4 := by
  induction h with
  | start => exact ⟨not_hasEnough_nil, le_refl _⟩
  | @next skip t reader buffer _ hread hno hlt ih =>
    obtain ⟨got, -, -, rfl⟩ := read_eq_ok.mp hread
    rw [containsTail_drop ih.1 ih.2] at hno
    exact ⟨not_hasEnough (Bool.eq_false_iff.mp hno) hlt, le_refl _⟩

/-- **What is searched is within the buffer.** -/
theorem Searching.bounds {skip : ℕ} {t : Server E} (h : Searching s skip t) {reader : Source UInt8}
    {buffer : List UInt8}
    (hread : Soketto.read t.socket.reader t.buffer blockSize = (.ok (), reader, buffer)) :
    skip ≤ min buffer.length maxHeadersSize ∧ min buffer.length maxHeadersSize ≤ buffer.length := by
  obtain ⟨hno, hskip⟩ := h.invariant
  obtain ⟨got, -, -, rfl⟩ := read_eq_ok.mp hread
  have hlt : t.buffer.length < maxHeadersSize := not_le.mp (not_or.mp hno).2
  rw [List.length_append]
  omega

/-! ## The read that is the last -/

/-- Reads of at most `n` bytes obtain these chunks, and then nothing more. -/
def Delivers (n : ℕ) : List (List UInt8) → Source UInt8 → Prop
  | [], reader => ∃ reader', Chunked.read n reader = (.ok [], reader')
  | c :: cs, reader => c ≠ [] ∧ ∃ reader', Chunked.read n reader = (.ok c, reader') ∧
      Delivers n cs reader'

theorem read_data {bs : List UInt8} (hne : bs ≠ []) {max : ℕ} (hle : bs.length ≤ max)
    (rest : Source UInt8) : Chunked.read max (.data bs :: rest) = (.ok bs, .data [] :: rest) := by
  obtain ⟨b, bs', rfl⟩ := List.exists_cons_of_ne_nil hne
  rw [Chunked.read, List.take_of_length_le hle, List.drop_of_length_le hle]

theorem Delivers.skip {n : ℕ} {cs : List (List UInt8)} {reader : Source UInt8}
    (h : Delivers n cs reader) : Delivers n cs (.data [] :: reader) := by
  cases cs with
  | nil => exact h
  | cons c cs => exact h

theorem delivers_map {n : ℕ} {cs : List (List UInt8)} (h : ∀ c ∈ cs, 1 ≤ c.length ∧ c.length ≤ n) :
    Delivers n cs (cs.map .data) := by
  induction cs with
  | nil => exact ⟨[], rfl⟩
  | cons c cs ih =>
    obtain ⟨hpos, hle⟩ := h c List.mem_cons_self
    have hne : c ≠ [] := List.length_pos_iff.mp hpos
    exact ⟨hne, _, read_data hne hle _, (ih fun c hc => h c (List.mem_cons_of_mem _ hc)).skip⟩

theorem Delivers.bytes_eq {n : ℕ} (hn : 0 < n) {cs : List (List UInt8)} {reader : Source UInt8}
    (h : Delivers n cs reader) : bytes reader = cs.flatten := by
  induction cs generalizing reader with
  | nil =>
    obtain ⟨reader', hread⟩ := h
    exact (Chunked.read_ok hread).2.2 hn rfl
  | cons c cs ih =>
    obtain ⟨-, reader', hread, hrest⟩ := h
    rw [(Chunked.read_ok hread).1, ih hrest, List.flatten_cons]

/-- What the loop leaves of these chunks: it ends after the first one with which the server has enough,
or there are too few. -/
inductive Leaves (cs : List (List UInt8)) (s : Server E) : Option (Except Error Unit × Server E) → Prop
  | enough (k : ℕ) (reader : Source UInt8) (hk : 1 ≤ k ∧ k ≤ cs.length)
      (h : HasEnough (s.buffer ++ (cs.take k).flatten))
      (hfirst : ∀ j, 1 ≤ j → j < k → ¬HasEnough (s.buffer ++ (cs.take j).flatten))
      (hrest : bytes reader = (cs.drop k).flatten) :
      Leaves cs s (some (.ok (), s.received reader (cs.take k).flatten))
  | ended (reader : Source UInt8)
      (hno : ∀ j, 1 ≤ j → j ≤ cs.length → ¬HasEnough (s.buffer ++ (cs.take j).flatten)) :
      Leaves cs s (some (.error (.io .unexpectedEof), s.received reader cs.flatten))

theorem Leaves.cons {c : List UInt8} {cs : List (List UInt8)} {reader : Source UInt8}
    {out : Option (Except Error Unit × Server E)} (hno : ¬HasEnough (s.buffer ++ c))
    (h : Leaves cs (s.received reader c) out) : Leaves (c :: cs) s out := by
  have hbuffer : ∀ j, (s.received reader c).buffer ++ (cs.take j).flatten =
      s.buffer ++ ((c :: cs).take (j + 1)).flatten := by
    intro j
    simp [Server.received]
  have hnone : ∀ k, (∀ j, 1 ≤ j → j < k →
      ¬HasEnough ((s.received reader c).buffer ++ (cs.take j).flatten)) →
      ∀ j, 1 ≤ j → j < k + 1 → ¬HasEnough (s.buffer ++ ((c :: cs).take j).flatten) := by
    intro k hk j hpos hlt
    obtain ⟨i, rfl⟩ : ∃ i, j = i + 1 := ⟨j - 1, by omega⟩
    by_cases hi : i = 0
    · simpa [hi] using hno
    · rw [← hbuffer]
      exact hk i (by omega) (by omega)
  cases h with
  | enough k reader' hk henough hfirst hrest =>
    have hserver : (s.received reader c).received reader' (cs.take k).flatten =
        s.received reader' ((c :: cs).take (k + 1)).flatten := by
      simp [Server.received]
    rw [hserver]
    refine .enough (k + 1) reader' ⟨by omega, by simpa using hk.2⟩ ?_ (hnone k hfirst) hrest
    rwa [← hbuffer]
  | ended reader' hall =>
    have hserver : (s.received reader c).received reader' cs.flatten =
        s.received reader' (c :: cs).flatten := by
      simp [Server.received]
    rw [hserver]
    refine .ended reader' fun j hpos hle => ?_
    rw [List.length_cons] at hle
    exact hnone (cs.length + 1) (fun j hpos hlt => hall j hpos (by omega)) j hpos (by omega)

theorem leaves_readHeadWhole {cs : List (List UInt8)} (fuel : ℕ) (hfuel : cs.length < fuel)
    (h : Delivers blockSize cs s.socket.reader) : Leaves cs s (Server.readHeadWhole fuel s) := by
  induction fuel generalizing cs s with
  | zero => omega
  | succ fuel ih =>
    rw [Server.readHeadWhole]
    cases cs with
    | nil =>
      obtain ⟨reader, hread⟩ := h
      have hended : Leaves [] s (some (.error (.io .unexpectedEof), s.received reader [])) :=
        .ended reader fun j hpos hle => absurd (hpos.trans hle) (Nat.not_lt_zero _)
      rw [read_eq_error.mpr (.inr ⟨hread, rfl, rfl⟩)]
      rwa [Server.received, List.append_nil] at hended
    | cons c cs =>
      obtain ⟨hne, reader, hread, hrest⟩ := h
      rw [read_eq_ok.mpr ⟨c, hne, hread, rfl⟩]
      dsimp only
      have henough : HasEnough (s.buffer ++ c) → Leaves (c :: cs) s (some (.ok (), s.received reader c)) := by
        intro h
        have hone : ((c :: cs).take 1).flatten = c := by simp
        have hserver : s.received reader c = s.received reader ((c :: cs).take 1).flatten := by
          rw [hone]
        rw [hserver]
        refine .enough 1 reader ⟨le_refl _, by simp⟩ (by rwa [hone]) (fun j _ _ => by omega) ?_
        exact hrest.bytes_eq (by decide)
      split_ifs with hfound hlimit
      · exact henough (.inl ((containsTail_iff _).mp hfound))
      · exact henough (.inr (by omega))
      · exact (ih (Nat.lt_of_succ_lt_succ hfuel) hrest).cons (not_hasEnough hfound hlimit)

theorem length_le_flatten {cs : List (List UInt8)} (h : ∀ c ∈ cs, 1 ≤ c.length) :
    cs.length ≤ cs.flatten.length := by
  induction cs with
  | nil => exact le_refl _
  | cons c cs ih =>
    have hc := h c List.mem_cons_self
    have hcs := ih fun c hc => h c (List.mem_cons_of_mem _ hc)
    rw [List.length_cons, List.flatten_cons, List.length_append]
    omega

/-- **The search for the end of a head.** From any chunks of 1 to 8192 bytes, the loop ends after the
first one with which the server has enough; it does what a search of everything after each read does; and
what is searched is within the buffer. -/
theorem head_search (s : Server E) {cs : List (List UInt8)}
    (h : ∀ c ∈ cs, 1 ≤ c.length ∧ c.length ≤ 8192) :
    let start : Server E := { s with socket := { s.socket with reader := cs.map .data }, buffer := [] }
    let fuel := (bytes start.socket.reader).length + 1
    Leaves cs start (Server.readHead fuel 0 start) ∧
      Server.readHead fuel 0 start = Server.readHeadWhole fuel start ∧
      ∀ skip t, Searching start skip t → ∀ reader buffer,
        Soketto.read t.socket.reader t.buffer blockSize = (.ok (), reader, buffer) →
          skip ≤ min buffer.length maxHeadersSize ∧
          min buffer.length maxHeadersSize ≤ buffer.length := by
  intro start fuel
  have hdelivers : Delivers blockSize cs start.socket.reader := delivers_map h
  have hfuel : cs.length < fuel := by
    have hle := length_le_flatten fun c hc => (h c hc).1
    rw [← hdelivers.bytes_eq (by decide)] at hle
    exact Nat.lt_succ_of_le hle
  have hwhole : Server.readHead fuel 0 start = Server.readHeadWhole fuel start :=
    readHead_eq_whole fuel not_hasEnough_nil (le_refl _)
  refine ⟨?_, hwhole, fun skip t ht reader buffer hread => ht.bounds hread⟩
  rw [hwhole]
  exact leaves_readHeadWhole fuel hfuel hdelivers

/-- A server whose reads bring the end of a head in four parts, and then one byte more. -/
def splitServer : Server Empty :=
  .new ⟨[.data [97, 13], .data [10], .data [13], .data [10, 98], .data [99]], [], []⟩

/-- The loop ends after the fourth of these reads. -/
theorem head_search_splitServer :
    (∀ c ∈ ([[97, 13], [10], [13], [10, 98], [99]] : List (List UInt8)),
      1 ≤ c.length ∧ c.length ≤ 8192) ∧
    Leaves [[97, 13], [10], [13], [10, 98], [99]] splitServer (Server.readHead 8 0 splitServer) ∧
    (Server.readHead 8 0 splitServer).map (fun r => (r.1.isOk, r.2.buffer, bytes r.2.socket.reader)) =
      some (true, [97, 13, 10, 13, 10, 98], [99]) :=
  have hlen : ∀ c ∈ ([[97, 13], [10], [13], [10, 98], [99]] : List (List UInt8)),
      1 ≤ c.length ∧ c.length ≤ 8192 := by decide
  ⟨hlen, (head_search splitServer hlen).1, by decide⟩

end Soketto.Handshake
