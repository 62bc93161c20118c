import Aiobt.ByteStrings
import Mathlib.Algebra.Order.Group.Nat

/-! # Stream ciphers

A generator yields its keystream byte by byte, and a byte is encrypted and decrypted alike. The
reader of a stream follows its writer when both started from one state. -/
namespace StreamCiphers

open ByteStrings

abbrev Generator (σ : Type) := σ → UInt8 × σ

variable {σ : Type} (G : Generator σ)

def skip : σ → ℕ → σ
  | s, 0 => s
  | s, n + 1 => skip (G s).2 n

def crypt : σ → Bytes → Bytes
  | _, [] => []
  | s, b :: rest => (b ^^^ (G s).1) :: crypt (G s).2 rest

@[simp] theorem skip_zero (s : σ) : skip G s 0 = s := rfl

@[simp] theorem crypt_nil (s : σ) : crypt G s [] = [] := rfl

theorem skip_add (s : σ) (m n : ℕ) : skip G s (m + n) = skip G (skip G s m) n := by
  induction m generalizing s with
  | zero => rw [Nat.zero_add, skip_zero]
  | succ m ih =>
    rw [Nat.succ_add]
    exact ih (G s).2

@[simp] theorem length_crypt (s : σ) (b : Bytes) : (crypt G s b).length = b.length := by
  induction b generalizing s with
  | nil => rfl
  | cons x rest ih => simp only [crypt, List.length_cons, ih]

theorem crypt_append (s : σ) (a b : Bytes) :
    crypt G s (a ++ b) = crypt G s a ++ crypt G (skip G s a.length) b := by
  induction a generalizing s with
  | nil => rfl
  | cons x rest ih => simp only [List.cons_append, crypt, ih, List.length_cons, skip]

@[simp] theorem crypt_crypt (s : σ) (b : Bytes) : crypt G s (crypt G s b) = b := by
  induction b generalizing s with
  | nil => rfl
  | cons x rest ih => simp only [crypt, ih, UInt8.xor_assoc, UInt8.xor_self, UInt8.xor_zero]

/-- Of what was sent under `s₀`, a reader in the state `s` has taken all but `rest`, and has seen
`seen`. -/
structure Follows (s₀ : σ) (sent : Bytes) (s : σ) (seen rest : Bytes) : Prop where
  split : ∃ taken, sent = taken ++ rest ∧ s = skip G s₀ taken.length ∧ seen = crypt G s₀ taken

variable {G} {s₀ s : σ} {sent seen rest plain : Bytes}

theorem Follows.start (sent : Bytes) : Follows G s₀ sent s₀ [] sent := ⟨[], rfl, rfl, rfl⟩

theorem Follows.read {chunk : Bytes} (h : Follows G s₀ sent s seen (chunk ++ rest)) :
    Follows G s₀ sent (skip G s chunk.length) (seen ++ crypt G s chunk) rest := by
  obtain ⟨taken, hsent, hs, hseen⟩ := h.split
  refine ⟨taken ++ chunk, ?_, ?_, ?_⟩
  · rw [hsent, List.append_assoc]
  · rw [hs, List.length_append, skip_add]
  · rw [hseen, hs, crypt_append]

theorem Follows.send (h : Follows G s₀ sent s seen rest) (more : Bytes) :
    Follows G s₀ (sent ++ more) s seen (rest ++ more) := by
  obtain ⟨taken, hsent, hs, hseen⟩ := h.split
  exact ⟨taken, by rw [hsent, List.append_assoc], hs, hseen⟩

theorem Follows.total (h : Follows G s₀ (crypt G s₀ plain) s seen rest) :
    seen ++ crypt G s rest = plain := by
  obtain ⟨taken, hsent, hs, hseen⟩ := h.split
  rw [hseen, hs, ← crypt_append, ← hsent, crypt_crypt]

end StreamCiphers
