import Aiobt.BigEndian
import Mathlib.Tactic.NormNum

/-! # The key exchange

The group and the helpers `_dh_keypair` and `_dh_secret` of `mse.py`. -/
namespace DiffieHellman

open ByteStrings BigEndian

def dhP : ℕ :=
  ((0xFFFFFFFFFFFFFFFFC90FDAA22168C234C4C6628B80DC1CD1 * 2 ^ 192 +
    0x29024E088A67CC74020BBEA63B139B22514A08798E3404DD) * 2 ^ 192 +
    0xEF9519B3CD3A431B302B0A6DF25F14374FE1356D6D51C245) * 2 ^ 192 +
    0xE485B576625E7EC6F44C42E9A63A36210000000000090563

def dhG : ℕ := 2

/-- The 20 bytes that `os.urandom(_DH_PRIVATE_BITS // 8)` gives. -/
abbrev PrivateKey := Vector UInt8 20

def PrivateKey.int (x : PrivateKey) : ℕ := fromBytes x.toList

def dhKeypair (random : PrivateKey) : ℕ × Bytes :=
  (random.int, toBytes 96 (dhG ^ random.int % dhP))

def dhSecret (theirPublic : Bytes) (ourPrivate : ℕ) : Bytes :=
  toBytes 96 (fromBytes theirPublic ^ ourPrivate % dhP)

theorem mod_dhP_lt (n : ℕ) : n % dhP < 256 ^ 96 :=
  (Nat.mod_lt n (by norm_num [dhP])).trans (by norm_num [dhP])

@[simp] theorem length_dhKeypair (x : PrivateKey) : (dhKeypair x).2.length = 96 :=
  length_toBytes 96 _

theorem dhSecret_comm (x y : PrivateKey) :
    dhSecret (dhKeypair x).2 y.int = dhSecret (dhKeypair y).2 x.int := by
  simp only [dhSecret, dhKeypair, fromBytes_toBytes (mod_dhP_lt _)]
  rw [← Nat.pow_mod, ← Nat.pow_mod, ← pow_mul, ← pow_mul, Nat.mul_comm]

end DiffieHellman
