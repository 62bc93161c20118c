import Mathlib.Data.Int.Basic
import Mathlib.Tactic.Linarith

/-! # Two's complement integers

`signedWrap half x` is the value of `x` in a signed machine integer with `2 * half` values. -/
namespace MachineIntegers

def signedWrap (half x : ℤ) : ℤ := (x + half) % (2 * half) - half

def Fits (half x : ℤ) : Prop := -half ≤ x ∧ x < half

instance (half x : ℤ) : Decidable (Fits half x) := inferInstanceAs (Decidable (_ ∧ _))

theorem signedWrap_fits {half : ℤ} (h : 0 < half) (x : ℤ) : Fits half (signedWrap half x) := by
  have h0 := Int.emod_nonneg (x + half) (show 2 * half ≠ 0 by omega)
  have h1 := Int.emod_lt_of_pos (x + half) (show 0 < 2 * half by omega)
  exact ⟨by unfold signedWrap; omega, by unfold signedWrap; omega⟩

theorem signedWrap_of_fits {half x : ℤ} (h : Fits half x) : signedWrap half x = x := by
  rw [signedWrap, Int.emod_eq_of_lt (by have := h.1; omega) (by have := h.2; omega)]
  omega

theorem signedWrap_eq_iff {half x : ℤ} (h : 0 < half) : signedWrap half x = x ↔ Fits half x := by
  constructor
  · intro heq
    rw [← heq]
    exact signedWrap_fits h x
  · exact signedWrap_of_fits

/-- A sum that passes the upper bound once comes out negative. -/
theorem signedWrap_overflow {half x : ℤ} (h1 : half ≤ x) (h2 : x < 2 * half) :
    signedWrap half x = x - 2 * half := by
  have hmod : (x + half) % (2 * half) = x + half - 2 * half := by
    rw [← Int.sub_emod_right, Int.emod_eq_of_lt (by omega) (by omega)]
  rw [signedWrap, hmod]
  omega

def ssizeHalf : ℤ := 2 ^ 63
def intHalf : ℤ := 2 ^ 31

def ssize (x : ℤ) : ℤ := signedWrap ssizeHalf x

def cInt (x : ℤ) : ℤ := signedWrap intHalf x

theorem ssize_of_fits {x : ℤ} (h1 : -2 ^ 63 ≤ x) (h2 : x < 2 ^ 63) : ssize x = x :=
  signedWrap_of_fits ⟨h1, h2⟩

theorem ssize_overflow {x : ℤ} (h1 : 2 ^ 63 ≤ x) (h2 : x < 2 ^ 64) : ssize x = x - 2 ^ 64 :=
  signedWrap_overflow h1 h2

theorem cInt_eq_iff {x : ℤ} : cInt x = x ↔ -2 ^ 31 ≤ x ∧ x < 2 ^ 31 :=
  signedWrap_eq_iff (by decide)

theorem cInt_le {x : ℤ} (h : 0 ≤ x) : cInt x ≤ x := by
  by_cases hx : x < 2 ^ 31
  · exact (cInt_eq_iff.mpr ⟨by omega, hx⟩).le
  · have hfits := (signedWrap_fits (show 0 < intHalf by decide) x).2
    unfold intHalf at hfits
    unfold cInt intHalf
    omega

end MachineIntegers
