import Aiobt.ByteStrings
import Mathlib.Algebra.Order.Ring.Nat
import Mathlib.Data.List.Induction
import Mathlib.Tactic.Ring

/-! # Numbers as bytes, the highest byte first -/
namespace BigEndian

open ByteStrings

def toBytes : ℕ → ℕ → Bytes
  | 0, _ => []
  | k + 1, n => toBytes k (n / 256) ++ [UInt8.ofNat (n % 256)]

def fromBytes (b : Bytes) : ℕ := b.foldl (fun acc x => acc * 256 + x.toNat) 0

@[simp] theorem length_toBytes (k n : ℕ) : (toBytes k n).length = k := by
  induction k generalizing n with
  | zero => rfl
  | succ k ih => rw [toBytes, List.length_append, ih, List.length_singleton]

theorem fromBytes_append_singleton (b : Bytes) (x : UInt8) :
    fromBytes (b ++ [x]) = fromBytes b * 256 + x.toNat := by
  simp [fromBytes]

theorem fromBytes_lt (b : Bytes) : fromBytes b < 256 ^ b.length := by
  have hloop : ∀ (b : Bytes) (acc : ℕ),
      b.foldl (fun acc x => acc * 256 + x.toNat) acc < (acc + 1) * 256 ^ b.length := by
    intro b
    induction b with
    | nil => simp
    | cons x b ih =>
      intro acc
      have hx := x.toNat_lt
      have hstep : (acc * 256 + x.toNat + 1) * 256 ^ b.length ≤ (acc + 1) * 256 * 256 ^ b.length :=
        Nat.mul_le_mul_right _ (by omega)
      rw [List.foldl_cons, List.length_cons, pow_succ', ← Nat.mul_assoc]
      exact Nat.lt_of_lt_of_le (ih _) hstep
  have h := hloop b 0
  rwa [Nat.zero_add, Nat.one_mul] at h

theorem fromBytes_toBytes {k n : ℕ} (h : n < 256 ^ k) : fromBytes (toBytes k n) = n := by
  induction k generalizing n with
  | zero =>
    have hn : n = 0 := by simpa using h
    rw [hn]
    rfl
  | succ k ih =>
    have hn : n / 256 < 256 ^ k := by
      rw [pow_succ] at h
      omega
    have hmod : (UInt8.ofNat (n % 256)).toNat = n % 256 := by simp
    rw [toBytes, fromBytes_append_singleton, ih hn, hmod]
    omega

theorem toBytes_fromBytes (b : Bytes) : toBytes b.length (fromBytes b) = b := by
  induction b using List.reverseRecOn with
  | nil => rfl
  | append_singleton b x ih =>
    have hx := x.toNat_lt
    have hdiv : (fromBytes b * 256 + x.toNat) / 256 = fromBytes b := by omega
    have hmod : (fromBytes b * 256 + x.toNat) % 256 = x.toNat := by omega
    rw [List.length_append, List.length_singleton, toBytes, fromBytes_append_singleton, hdiv, hmod,
      ih, UInt8.ofNat_toNat]

theorem head?_toBytes {k n : ℕ} (h : n < 256 ^ (k + 1)) :
    (toBytes (k + 1) n).head? = some (UInt8.ofNat (n / 256 ^ k)) := by
  induction k generalizing n with
  | zero =>
    have hn : n % 256 = n := Nat.mod_eq_of_lt (by simpa using h)
    simp [toBytes, hn]
  | succ k ih =>
    have hn : n / 256 < 256 ^ (k + 1) := by
      rw [pow_succ] at h
      omega
    rw [toBytes, List.head?_append, ih hn, Nat.div_div_eq_div_mul, ← pow_succ']
    rfl

end BigEndian
