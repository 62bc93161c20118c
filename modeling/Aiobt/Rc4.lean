import Aiobt.StreamCiphers

/-! # RC4

The class `RC4` of `mse.py`. -/
namespace Rc4

open ByteStrings StreamCiphers

structure RC4 where
  S : Vector UInt8 256
  i : UInt8
  j : UInt8

def entry (S : Vector UInt8 256) (k : UInt8) : UInt8 := S.get k.toFin

def swap (S : Vector UInt8 256) (i j : UInt8) : Vector UInt8 256 :=
  S.swap i.toNat j.toNat i.toNat_lt j.toNat_lt

def next : Generator RC4 := fun c =>
  let i := c.i + 1
  let j := c.j + entry c.S i
  let S := swap c.S i j
  (entry S (entry S i + entry S j), ⟨S, i, j⟩)

def RC4.process : RC4 → Bytes → Bytes × RC4
  | c, [] => ([], c)
  | c, b :: rest =>
    let out := (next c).2.process rest
    ((b ^^^ (next c).1) :: out.1, out.2)

/-- The loop of `__init__` from `i` on, with `n` passes left. -/
def schedule (key : Bytes) : ℕ → ℕ → UInt8 → Vector UInt8 256 → Vector UInt8 256
  | 0, _, _, S => S
  | n + 1, i, j, S =>
    let j := j + entry S (UInt8.ofNat i) + key.getD (i % key.length) 0
    schedule key n (i + 1) j (swap S (UInt8.ofNat i) j)

@[irreducible] def RC4.new (key : Bytes) (discard : ℕ) : RC4 :=
  let c : RC4 := ⟨schedule key 256 0 0 (Vector.ofFn fun k => UInt8.ofNat k), 0, 0⟩
  (c.process (List.replicate discard 0)).2

@[simp] theorem process_fst (c : RC4) (data : Bytes) : (c.process data).1 = crypt next c data := by
  induction data generalizing c with
  | nil => rfl
  | cons b rest ih => simp only [RC4.process, crypt, ih]

@[simp] theorem process_snd (c : RC4) (data : Bytes) :
    (c.process data).2 = skip next c data.length := by
  induction data generalizing c with
  | nil => rfl
  | cons b rest ih => simp only [RC4.process, List.length_cons, skip, ih]

end Rc4
