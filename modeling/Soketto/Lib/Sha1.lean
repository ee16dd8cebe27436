import Soketto.Lib.BigEndian

/-!
# SHA-1

The secure hash algorithm 1, block by block.

* `Sha1.pad`, `Sha1.compress`: padding to whole blocks, and one block.
* `Sha1.sha1`: the digest.
-/

set_option autoImplicit false

namespace Sha1

open BigEndian

/-- Rotate to the left by `n` bits. -/
def rotl (x n : UInt32) : UInt32 := (x <<< n) ||| (x >>> (32 - n))

/-- The message with a bit and zeros after it and then its length, in whole blocks. -/
def pad (msg : List UInt8) : List UInt8 :=
  msg ++ 0x80 :: List.replicate ((119 - msg.length % 64) % 64) 0 ++ beBytes 8 (8 * msg.length)

/-- The five words of the state. -/
structure State where
  a : UInt32
  b : UInt32
  c : UInt32
  d : UInt32
  e : UInt32
  deriving DecidableEq

def State.init : State := ⟨0x67452301, 0xEFCDAB89, 0x98BADCFE, 0x10325476, 0xC3D2E1F0⟩

/-- The words of a block, followed by `n` more. The words are kept backwards. -/
def schedule : ℕ → List UInt32 → List UInt32
  | 0, ws => ws.reverse
  | n + 1, ws =>
    schedule n (rotl (ws.getD 2 0 ^^^ ws.getD 7 0 ^^^ ws.getD 13 0 ^^^ ws.getD 15 0) 1 :: ws)

/-- The function and the constant of a round. -/
def mix (t : ℕ) (b c d : UInt32) : UInt32 :=
  if t < 20 then ((b &&& c) ||| (~~~b &&& d)) + 0x5A827999
  else if t < 40 then (b ^^^ c ^^^ d) + 0x6ED9EBA1
  else if t < 60 then ((b &&& c) ||| (b &&& d) ||| (c &&& d)) + 0x8F1BBCDC
  else (b ^^^ c ^^^ d) + 0xCA62C1D6

/-- The rounds from `t` on. -/
def rounds : ℕ → List UInt32 → State → State
  | _, [], s => s
  | t, w :: ws, s =>
    rounds (t + 1) ws ⟨rotl s.a 5 + mix t s.b s.c s.d + s.e + w, s.a, rotl s.b 30, s.c, s.d⟩

/-- The words of some bytes. -/
def words (bs : List UInt8) : List UInt32 :=
  (List.range (bs.length / 4)).map fun i => .ofNat (beNat ((bs.drop (4 * i)).take 4))

/-- One block. -/
def compress (s : State) (block : List UInt8) : State :=
  let r := rounds 0 (schedule 64 (words block).reverse) s
  ⟨s.a + r.a, s.b + r.b, s.c + r.c, s.d + r.d, s.e + r.e⟩

/-- All blocks. -/
def blocks : ℕ → State → List UInt8 → State
  | 0, s, _ => s
  | n + 1, s, bs => blocks n (compress s (bs.take 64)) (bs.drop 64)

/-- The digest. -/
def sha1 (msg : List UInt8) : Vector UInt8 20 :=
  let bs := pad msg
  let s := blocks (bs.length / 64) .init bs
  ⟨(beBytes 4 s.a.toNat ++ beBytes 4 s.b.toNat ++ beBytes 4 s.c.toNat ++ beBytes 4 s.d.toNat ++
    beBytes 4 s.e.toNat).toArray, by simp⟩

example : (sha1 [97, 98, 99]).toList = [0xA9, 0x99, 0x3E, 0x36, 0x47, 0x06, 0x81, 0x6A, 0xBA, 0x3E,
    0x25, 0x71, 0x78, 0x50, 0xC2, 0x6C, 0x9C, 0xD0, 0xD8, 0x9D] := by decide +kernel

end Sha1
