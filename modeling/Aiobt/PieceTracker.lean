import Aiobt.ByteStrings
import Mathlib.Data.Finset.Insert
import Mathlib.Data.Finset.Erase
import Mathlib.Data.Finset.Card
import Mathlib.Order.Interval.Finset.Nat
import Mathlib.Tactic.Linarith
import Mathlib.Tactic.Ring

/-! # Piece tracking

The pure-Python module `piece.py`. The digest is a parameter, and the `set` and `dict` attributes
of the tracker are finite sets of indices and a map from indices. -/
namespace PieceTracker

open ByteStrings

structure PieceSpec where
  index : ℤ
  offset : ℤ
  length : ℤ
  hash : Bytes
  deriving DecidableEq, Repr

def buildSpecsLoop (pieceLength totalLength : ℤ) (piecesRaw : Bytes) :
    ℕ → ℕ → ℤ → List PieceSpec
  | 0, _, _ => []
  | n + 1, i, offset =>
    let length := min pieceLength (totalLength - offset)
    ⟨i, offset, length, slice piecesRaw (i * 20) ((i + 1) * 20)⟩ ::
      buildSpecsLoop pieceLength totalLength piecesRaw n (i + 1) (offset + length)

structure Tracker where
  pieceCount : ℤ
  specs : List PieceSpec
  got : Finset ℕ
  pending : Finset ℕ
  failed : Finset ℕ
  availability : ℕ → Option ℕ

/-- `PieceTracker.__init__`; `none` is the `ZeroDivisionError` of `divmod`. -/
def init (pieceLength totalLength : ℤ) (piecesRaw : Bytes) : Option Tracker :=
  if pieceLength = 0 then none
  else
    let full := totalLength.fdiv pieceLength
    let remainder := totalLength.fmod pieceLength
    let pieceCount := full + (if remainder ≠ 0 then 1 else 0)
    some {
      pieceCount := pieceCount
      specs := buildSpecsLoop pieceLength totalLength piecesRaw pieceCount.toNat 0 0
      got := ∅
      pending := ∅
      failed := ∅
      availability := fun _ => none }

namespace Tracker

def isComplete (t : Tracker) : Prop := (t.got.card : ℤ) = t.pieceCount

instance (t : Tracker) : Decidable t.isComplete := inferInstanceAs (Decidable (_ = _))

def markHave (t : Tracker) (index : ℕ) : Tracker :=
  { t with
    got := insert index t.got
    pending := t.pending.erase index
    failed := t.failed.erase index }

def markPending (t : Tracker) (index : ℕ) : Tracker :=
  { t with pending := insert index t.pending }

def markFailed (t : Tracker) (index : ℕ) : Tracker :=
  { t with
    pending := t.pending.erase index
    failed := insert index t.failed }

/-- The loop over the set changes each of its indices once. -/
def updateAvailability (t : Tracker) (peerPieces : Finset ℕ) : Tracker :=
  { t with availability := fun i =>
      if i ∈ peerPieces then some ((t.availability i).getD 0 + 1) else t.availability i }

def removeAvailability (t : Tracker) (peerPieces : Finset ℕ) : Tracker :=
  { t with availability := fun i =>
      if i ∈ peerPieces then
        let count := (t.availability i).getD 0
        if count ≤ 1 then none else some (count - 1)
      else t.availability i }

def rarity (t : Tracker) (i : ℕ) : ℕ := (t.availability i).getD 0

def candidates (t : Tracker) : List ℕ :=
  (List.range t.pieceCount.toNat).filter fun i => i ∉ t.got ∧ i ∉ t.pending

/-- The sort is stable, so the lowest index wins among equally rare pieces. -/
def selectPiece (t : Tracker) : Option ℕ :=
  (t.candidates.insertionSort fun i j => t.rarity i ≤ t.rarity j).head?

end Tracker

def verifyPiece (sha1 : Bytes → Bytes) (data expectedHash : Bytes) : Bool :=
  sha1 data == expectedHash

namespace Tracker

variable (t : Tracker) (i j : ℕ)

@[simp] theorem markHave_got : (t.markHave i).got = insert i t.got := rfl
@[simp] theorem markHave_pending : (t.markHave i).pending = t.pending.erase i := rfl
@[simp] theorem markHave_specs : (t.markHave i).specs = t.specs := rfl
@[simp] theorem markHave_pieceCount : (t.markHave i).pieceCount = t.pieceCount := rfl
@[simp] theorem markPending_got : (t.markPending i).got = t.got := rfl
@[simp] theorem markPending_pending : (t.markPending i).pending = insert i t.pending := rfl
@[simp] theorem markPending_specs : (t.markPending i).specs = t.specs := rfl
@[simp] theorem markPending_pieceCount : (t.markPending i).pieceCount = t.pieceCount := rfl
@[simp] theorem markFailed_got : (t.markFailed i).got = t.got := rfl
@[simp] theorem markFailed_pending : (t.markFailed i).pending = t.pending.erase i := rfl
@[simp] theorem markFailed_specs : (t.markFailed i).specs = t.specs := rfl
@[simp] theorem markFailed_pieceCount : (t.markFailed i).pieceCount = t.pieceCount := rfl

variable (p : Finset ℕ)

@[simp] theorem updateAvailability_got : (t.updateAvailability p).got = t.got := rfl
@[simp] theorem updateAvailability_pending : (t.updateAvailability p).pending = t.pending := rfl
@[simp] theorem updateAvailability_specs : (t.updateAvailability p).specs = t.specs := rfl
@[simp] theorem updateAvailability_pieceCount :
    (t.updateAvailability p).pieceCount = t.pieceCount := rfl
@[simp] theorem removeAvailability_got : (t.removeAvailability p).got = t.got := rfl
@[simp] theorem removeAvailability_pending : (t.removeAvailability p).pending = t.pending := rfl
@[simp] theorem removeAvailability_specs : (t.removeAvailability p).specs = t.specs := rfl
@[simp] theorem removeAvailability_pieceCount :
    (t.removeAvailability p).pieceCount = t.pieceCount := rfl

variable {t i j p}

theorem selectPiece_spec (h : t.selectPiece = some i) :
    i < t.pieceCount.toNat ∧ i ∉ t.got ∧ i ∉ t.pending := by
  have hmem : i ∈ t.candidates.insertionSort fun i j => t.rarity i ≤ t.rarity j :=
    List.mem_of_head? h
  rw [List.mem_insertionSort, candidates, List.mem_filter] at hmem
  simpa using hmem

end Tracker

def specAt (pieceLength totalLength : ℤ) (piecesRaw : Bytes) (i : ℕ) : PieceSpec :=
  ⟨i, i * pieceLength, min pieceLength (totalLength - i * pieceLength),
    slice piecesRaw (i * 20) ((i + 1) * 20)⟩

theorem specs_eq_of_init {pieceLength totalLength : ℤ} {raw : Bytes} {tr : Tracker}
    (h : init pieceLength totalLength raw = some tr) :
    pieceLength ≠ 0 ∧
      tr.specs = buildSpecsLoop pieceLength totalLength raw tr.pieceCount.toNat 0 0 ∧
      tr.pieceCount = totalLength.fdiv pieceLength +
        (if totalLength.fmod pieceLength ≠ 0 then 1 else 0) ∧ tr.got = ∅ ∧ tr.pending = ∅ ∧
        ∀ i, tr.availability i = none := by
  unfold init at h
  split at h
  · cases h
  · next hne =>
    rw [← Option.some.inj h]
    exact ⟨hne, rfl, rfl, rfl, rfl, fun _ => rfl⟩

theorem specs_length {pieceLength totalLength : ℤ} {raw : Bytes} {tr : Tracker}
    (h : init pieceLength totalLength raw = some tr) : tr.specs.length = tr.pieceCount.toNat := by
  have hloop : ∀ n i offset, (buildSpecsLoop pieceLength totalLength raw n i offset).length = n := by
    intro n
    induction n with
    | zero => exact fun _ _ => rfl
    | succ n ih =>
      intro i offset
      rw [buildSpecsLoop, List.length_cons, ih]
  rw [(specs_eq_of_init h).2.1, hloop]

/-- As long as a piece follows, the running offset is the index times the piece length. -/
theorem buildSpecsLoop_eq {pieceLength totalLength : ℤ} (piecesRaw : Bytes) {n i : ℕ}
    (hfit : ∀ k, k + 1 < n → ((i + k + 1 : ℕ) : ℤ) * pieceLength ≤ totalLength) :
    buildSpecsLoop pieceLength totalLength piecesRaw n i (i * pieceLength) =
      (List.range' i n).map (specAt pieceLength totalLength piecesRaw) := by
  induction n generalizing i with
  | zero => rfl
  | succ n ih =>
    rw [buildSpecsLoop, List.range'_succ, List.map_cons]
    refine congrArg _ ?_
    cases n with
    | zero => rfl
    | succ n =>
      have hstep : ((i + 1 : ℕ) : ℤ) * pieceLength = i * pieceLength + pieceLength := by
        push_cast
        ring
      have hmin : min pieceLength (totalLength - i * pieceLength) = pieceLength := by
        have := hfit 0 (by omega)
        rw [Nat.add_zero, hstep] at this
        omega
      rw [hmin, ← hstep]
      apply ih
      intro k hk
      have := hfit (k + 1) (by omega)
      rwa [show i + 1 + k + 1 = i + (k + 1) + 1 by omega]

theorem pieceCount_bounds {pieceLength totalLength : ℤ} {piecesRaw : Bytes} {t : Tracker}
    (h1 : 1 ≤ pieceLength) (h0 : 0 ≤ totalLength)
    (ht : init pieceLength totalLength piecesRaw = some t) :
    0 ≤ t.pieceCount ∧ totalLength ≤ t.pieceCount * pieceLength ∧
      (t.pieceCount - 1) * pieceLength < totalLength := by
  have hne : pieceLength ≠ 0 := by omega
  rw [init, if_neg hne] at ht
  have hcount : t.pieceCount = totalLength.fdiv pieceLength +
      (if totalLength.fmod pieceLength ≠ 0 then 1 else 0) := by
    rw [← Option.some.inj ht]
  have hdiv := Int.mul_fdiv_add_fmod totalLength pieceLength
  have hq : 0 ≤ totalLength.fdiv pieceLength := Int.fdiv_nonneg h0 (by omega)
  have hr0 : 0 ≤ totalLength.fmod pieceLength := Int.fmod_nonneg_of_pos _ (by omega)
  have hr1 : totalLength.fmod pieceLength < pieceLength := Int.fmod_lt_of_pos _ (by omega)
  rw [hcount]
  by_cases hr : totalLength.fmod pieceLength = 0
  · rw [if_neg (not_not.mpr hr)]
    refine ⟨by omega, by nlinarith, by nlinarith⟩
  · rw [if_pos hr]
    refine ⟨by omega, by nlinarith, ?_⟩
    have : 0 < totalLength.fmod pieceLength := by omega
    nlinarith

/-- The specifications of a tracker with positive piece length. -/
theorem init_specs {pieceLength totalLength : ℤ} {piecesRaw : Bytes} {t : Tracker}
    (h1 : 1 ≤ pieceLength) (h0 : 0 ≤ totalLength)
    (ht : init pieceLength totalLength piecesRaw = some t) :
    t.specs = (List.range t.pieceCount.toNat).map (specAt pieceLength totalLength piecesRaw) := by
  obtain ⟨hc0, hc1, hc2⟩ := pieceCount_bounds h1 h0 ht
  have hne : pieceLength ≠ 0 := by omega
  have hspecs : t.specs = buildSpecsLoop pieceLength totalLength piecesRaw t.pieceCount.toNat 0 0 := by
    rw [init, if_neg hne] at ht
    rw [← Option.some.inj ht]
  have hfit : ∀ k, k + 1 < t.pieceCount.toNat →
      ((0 + k + 1 : ℕ) : ℤ) * pieceLength ≤ totalLength := by
    intro k hk
    have hk' : ((0 + k + 1 : ℕ) : ℤ) ≤ t.pieceCount - 1 := by omega
    have := mul_le_mul_of_nonneg_right hk' (show 0 ≤ pieceLength by omega)
    omega
  have hloop := buildSpecsLoop_eq piecesRaw hfit
  rw [hspecs, List.range_eq_range', ← hloop, Nat.cast_zero, zero_mul]

end PieceTracker
