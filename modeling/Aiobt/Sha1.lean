import Aiobt.ByteStrings
import Mathlib.Algebra.Group.Nat.Defs

/-! # SHA-1

`hashlib.sha1`: 80 rounds over each block of 64 bytes, on words of 32 bits. -/
namespace Sha1

open ByteStrings

def rotl (x : UInt32) (n : UInt32) : UInt32 := (x <<< n) ||| (x >>> (32 - n))

structure Chain where
  a : UInt32
  b : UInt32
  c : UInt32
  d : UInt32
  e : UInt32

def initial : Chain := ⟨0x67452301, 0xEFCDAB89, 0x98BADCFE, 0x10325476, 0xC3D2E1F0⟩

def mix (t : ℕ) (b c d : UInt32) : UInt32 :=
  if t < 20 then ((b &&& c) ||| (~~~b &&& d)) + 0x5A827999
  else if t < 40 then (b ^^^ c ^^^ d) + 0x6ED9EBA1
  else if t < 60 then ((b &&& c) ||| (b &&& d) ||| (c &&& d)) + 0x8F1BBCDC
  else (b ^^^ c ^^^ d) + 0xCA62C1D6

/-- The last `n` rounds; `window` holds the next 16 words of the schedule. -/
def rounds : ℕ → List UInt32 → Chain → Chain
  | 0, _, s => s
  | n + 1, window, s =>
    let w := window.getD 0 0
    let next := rotl (window.getD 13 0 ^^^ window.getD 8 0 ^^^ window.getD 2 0 ^^^ w) 1
    rounds n (window.drop 1 ++ [next])
      ⟨rotl s.a 5 + mix (79 - n) s.b s.c s.d + s.e + w, s.a, rotl s.b 30, s.c, s.d⟩

def word (b : Bytes) : UInt32 := b.foldl (fun acc x => acc <<< 8 ||| x.toUInt32) 0

def wordBytes (w : UInt32) : Bytes :=
  [(w >>> 24).toUInt8, (w >>> 16).toUInt8, (w >>> 8).toUInt8, w.toUInt8]

def compress (s : Chain) (block : Bytes) : Chain :=
  let words := (List.range 16).map fun i => word (slice block (4 * i) (4 * i + 4))
  let r := rounds 80 words s
  ⟨s.a + r.a, s.b + r.b, s.c + r.c, s.d + r.d, s.e + r.e⟩

/-- The message is filled up to whole blocks; the last eight bytes are its length in bits. -/
def padded (m : Bytes) : Bytes :=
  let bits := 8 * m.length
  m ++ 0x80 :: List.replicate ((119 - m.length % 64) % 64) 0 ++
    (List.range 8).map fun i => UInt8.ofNat (bits / 256 ^ (7 - i))

def absorb : ℕ → Chain → Bytes → Chain
  | 0, s, _ => s
  | n + 1, s, b => absorb n (compress s (b.take 64)) (b.drop 64)

def digest (s : Chain) : Bytes :=
  wordBytes s.a ++ wordBytes s.b ++ wordBytes s.c ++ wordBytes s.d ++ wordBytes s.e

def sha1 (m : Bytes) : Bytes :=
  let b := padded m
  digest (absorb (b.length / 64) initial b)

@[simp] theorem length_sha1 (m : Bytes) : (sha1 m).length = 20 := rfl

example : sha1 [0x61, 0x62, 0x63] = [0xa9, 0x99, 0x3e, 0x36, 0x47, 0x06, 0x81, 0x6a, 0xba, 0x3e,
    0x25, 0x71, 0x78, 0x50, 0xc2, 0x6c, 0x9c, 0xd0, 0xd8, 0x9d] := by decide +kernel

attribute [irreducible] sha1

end Sha1
