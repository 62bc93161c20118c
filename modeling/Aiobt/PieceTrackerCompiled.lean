import Aiobt.PieceTracker
import Aiobt.MachineIntegers

/-! # The compiled piece tracker

The Cython module `piece.pyx`: sizes and offsets are `Py_ssize_t`, and what goes into a
`PieceSpec` is cast to `int` first. -/
namespace PieceTrackerCompiled

open ByteStrings MachineIntegers
open PieceTracker (PieceSpec Tracker specAt)

inductive Failure where
  | overflowError
  /-- Division by zero, which `cdivision` does not check. -/
  | undefined
  deriving DecidableEq, Repr

def buildSpecsLoop (pieceLen total : ℤ) (raw : Bytes) : ℕ → ℤ → ℤ → List PieceSpec
  | 0, _, _ => []
  | n + 1, i, offset =>
    let length := ssize (total - offset)
    let length := if length > pieceLen then pieceLen else length
    let hashStart := ssize (i * 20)
    ⟨cInt i, cInt offset, cInt length, pySlice raw hashStart (ssize (hashStart + 20))⟩ ::
      buildSpecsLoop pieceLen total raw n (ssize (i + 1)) (ssize (offset + length))

def init (pieceLength totalLength : ℤ) (piecesRaw : Bytes) : Except Failure Tracker :=
  if ¬ Fits ssizeHalf pieceLength ∨ ¬ Fits ssizeHalf totalLength then .error .overflowError
  else if pieceLength = 0 then .error .undefined
  else
    let full := ssize (totalLength.tdiv pieceLength)
    let remainder := totalLength.tmod pieceLength
    let pieceCount := if remainder ≠ 0 then cInt (ssize (full + 1)) else cInt full
    .ok {
      pieceCount := pieceCount
      specs := buildSpecsLoop pieceLength totalLength piecesRaw pieceCount.toNat 0 0
      got := ∅
      pending := ∅
      failed := ∅
      availability := fun _ => none }

def asInt (n : ℤ) : Except Failure ℤ := if Fits intHalf n then .ok n else .error .overflowError

def removeLoop : List ℕ → (ℕ → Option ℕ) → Except Failure (ℕ → Option ℕ)
  | [], avail => .ok avail
  | idx :: rest, avail => do
    let count ← asInt ((avail idx).getD 0 : ℕ)
    if count ≤ 1 then removeLoop rest (Function.update avail idx none)
    else removeLoop rest (Function.update avail idx (some (cInt (count - 1)).toNat))

def selectLoop (t : Tracker) : ℕ → ℕ → ℤ → ℤ → Except Failure ℤ
  | 0, _, _, bestIdx => .ok bestIdx
  | n + 1, i, bestAvail, bestIdx =>
    if i ∈ t.got ∨ i ∈ t.pending then selectLoop t n (i + 1) bestAvail bestIdx
    else do
      let availVal ← asInt (t.rarity i)
      if bestIdx = -1 ∨ availVal < bestAvail then selectLoop t n (i + 1) availVal (cInt i)
      else selectLoop t n (i + 1) bestAvail bestIdx

def selectPiece (t : Tracker) : Except Failure (Option ℤ) := do
  let pc ← asInt t.pieceCount
  let bestIdx ← selectLoop t pc.toNat 0 0 (-1)
  return if bestIdx = -1 then none else some bestIdx

def truncated (spec : PieceSpec) : PieceSpec :=
  ⟨cInt spec.index, cInt spec.offset, cInt spec.length, spec.hash⟩

/-- The loop computes the specifications of the pure tracker, then truncates them. -/
theorem buildSpecsLoop_eq {pieceLength totalLength : ℤ} (piecesRaw : Bytes) {n i : ℕ}
    (h0 : 0 < pieceLength) (hbig : totalLength < 2 ^ 63) (hcount : i + n ≤ 2 ^ 31)
    (hfit : ∀ k, k < n → ((i + k : ℕ) : ℤ) * pieceLength < totalLength) :
    buildSpecsLoop pieceLength totalLength piecesRaw n i (i * pieceLength) =
      (List.range' i n).map fun k => truncated (specAt pieceLength totalLength piecesRaw k) := by
  induction n generalizing i with
  | zero => rfl
  | succ n ih =>
    have hi : 0 ≤ (i : ℤ) * pieceLength := by positivity
    have hlt : (i : ℤ) * pieceLength < totalLength := by simpa using hfit 0 (by omega)
    have hleft : ssize (totalLength - i * pieceLength) = totalLength - i * pieceLength :=
      ssize_of_fits (by omega) (by omega)
    have hmin : (if totalLength - i * pieceLength > pieceLength then pieceLength
        else totalLength - i * pieceLength) = min pieceLength (totalLength - i * pieceLength) := by
      split <;> omega
    have hstart : ssize ((i : ℤ) * 20) = ((i * 20 : ℕ) : ℤ) := by
      rw [ssize_of_fits (by omega) (by omega)]
      push_cast
      ring
    have hend : ssize (((i * 20 : ℕ) : ℤ) + 20) = (((i + 1) * 20 : ℕ) : ℤ) := by
      rw [ssize_of_fits (by omega) (by omega)]
      push_cast
      ring
    have hnext : ssize ((i : ℤ) + 1) = ((i + 1 : ℕ) : ℤ) := by
      rw [ssize_of_fits (by omega) (by omega)]
      push_cast
      ring
    rw [buildSpecsLoop, List.range'_succ, List.map_cons]
    simp only [hleft, hmin, hstart, hend, hnext, pySlice_natCast]
    refine congrArg _ ?_
    cases n with
    | zero => rfl
    | succ n =>
      have hstep : ((i + 1 : ℕ) : ℤ) * pieceLength = i * pieceLength + pieceLength := by
        push_cast
        ring
      have hlt' := hfit 1 (by omega)
      rw [hstep] at hlt'
      have hmin' : min pieceLength (totalLength - i * pieceLength) = pieceLength := by omega
      rw [hmin', ssize_of_fits (by omega) (by omega), ← hstep]
      apply ih (by omega)
      intro k hk
      have := hfit (k + 1) (by omega)
      rwa [show i + 1 + k = i + (k + 1) by omega]

/-- With sizes that fit, the piece count is cast, and so many of the specifications of the pure
tracker are built, truncated. -/
theorem init_cast {pieceLength totalLength : ℤ} {piecesRaw : Bytes} {t : Tracker}
    (h1 : 1 ≤ pieceLength) (hp : pieceLength < 2 ^ 63) (h0 : 0 ≤ totalLength)
    (hbig : totalLength < 2 ^ 63)
    (ht : PieceTracker.init pieceLength totalLength piecesRaw = some t) :
    ∃ t', init pieceLength totalLength piecesRaw = .ok t' ∧ t'.pieceCount = cInt t.pieceCount ∧
      t'.specs = (List.range t'.pieceCount.toNat).map fun k =>
        truncated (specAt pieceLength totalLength piecesRaw k) := by
  obtain ⟨hc0, -, hc2⟩ := PieceTracker.pieceCount_bounds h1 h0 ht
  have hdiv : totalLength.tdiv pieceLength = totalLength.fdiv pieceLength := by
    rw [Int.tdiv_eq_ediv_of_nonneg h0, Int.fdiv_eq_ediv_of_nonneg _ (by omega)]
  have hmod : totalLength.tmod pieceLength = totalLength.fmod pieceLength := by
    rw [Int.tmod_eq_emod_of_nonneg h0, Int.fmod_eq_emod_of_nonneg _ (by omega)]
  have hne : pieceLength ≠ 0 := by omega
  have hpure : t.pieceCount = totalLength.fdiv pieceLength +
      (if totalLength.fmod pieceLength ≠ 0 then 1 else 0) := by
    rw [PieceTracker.init, if_neg hne] at ht
    rw [← Option.some.inj ht]
  have hle : t.pieceCount ≤ totalLength := by
    have := mul_le_mul_of_nonneg_left h1 (show 0 ≤ max (t.pieceCount - 1) 0 by omega)
    rcases max_choice (t.pieceCount - 1) 0 with hmax | hmax
    · rw [hmax] at this
      omega
    · have hzero : t.pieceCount ≤ 1 := by omega
      by_cases hcount : t.pieceCount = 1
      · rw [hcount] at hc2
        omega
      · omega
  have hq : 0 ≤ totalLength.fdiv pieceLength := Int.fdiv_nonneg h0 (by omega)
  have hfull : ssize (totalLength.fdiv pieceLength) = totalLength.fdiv pieceLength := by
    apply ssize_of_fits (by omega)
    split at hpure <;> omega
  have hcast : (if totalLength.tmod pieceLength ≠ 0 then
      cInt (ssize (ssize (totalLength.tdiv pieceLength) + 1))
      else cInt (ssize (totalLength.tdiv pieceLength))) = cInt t.pieceCount := by
    rw [hdiv, hmod, hfull]
    by_cases hr : totalLength.fmod pieceLength ≠ 0
    · rw [if_pos hr] at hpure
      rw [if_pos hr, hpure, ssize_of_fits (by omega) (by omega)]
    · rw [if_neg hr] at hpure
      rw [if_neg hr, hpure, add_zero]
  have hfits : ¬ (¬ Fits ssizeHalf pieceLength ∨ ¬ Fits ssizeHalf totalLength) := by
    unfold Fits ssizeHalf
    omega
  rw [init, if_neg hfits, if_neg hne]
  simp only [hcast]
  refine ⟨_, rfl, rfl, ?_⟩
  have hcount : cInt t.pieceCount ≤ t.pieceCount := cInt_le hc0
  have hsmall := (signedWrap_fits (show 0 < intHalf by decide) t.pieceCount).2
  have hfit : ∀ k, k < (cInt t.pieceCount).toNat → ((0 + k : ℕ) : ℤ) * pieceLength < totalLength := by
    intro k hk
    have hk' : ((0 + k : ℕ) : ℤ) ≤ t.pieceCount - 1 := by omega
    have := mul_le_mul_of_nonneg_right hk' (show 0 ≤ pieceLength by omega)
    omega
  have hint : (cInt t.pieceCount).toNat ≤ 2 ^ 31 := by
    unfold intHalf at hsmall
    unfold cInt intHalf
    omega
  have hloop := buildSpecsLoop_eq piecesRaw (show 0 < pieceLength by omega) hbig
    (show 0 + (cInt t.pieceCount).toNat ≤ 2 ^ 31 by omega) hfit
  rw [Nat.cast_zero, zero_mul] at hloop
  rw [hloop, List.range_eq_range']

/-- A piece count that fits survives its cast. -/
theorem init_eq {pieceLength totalLength : ℤ} {piecesRaw : Bytes} {t : Tracker}
    (h1 : 1 ≤ pieceLength) (hp : pieceLength < 2 ^ 63) (h0 : 0 ≤ totalLength)
    (hbig : totalLength < 2 ^ 63) (ht : PieceTracker.init pieceLength totalLength piecesRaw = some t)
    (hcount : t.pieceCount < 2 ^ 31) :
    ∃ t', init pieceLength totalLength piecesRaw = .ok t' ∧ t'.pieceCount = t.pieceCount ∧
      t'.specs = t.specs.map truncated := by
  obtain ⟨t', hinit, hcast, hspecs⟩ := init_cast h1 hp h0 hbig ht
  have hc0 := (PieceTracker.pieceCount_bounds h1 h0 ht).1
  have hsame : t'.pieceCount = t.pieceCount := by
    rw [hcast]
    exact cInt_eq_iff.mpr ⟨by omega, hcount⟩
  refine ⟨t', hinit, hsame, ?_⟩
  rw [hspecs, hsame, PieceTracker.init_specs h1 h0 ht, List.map_map]
  rfl

theorem truncated_eq_iff {spec : PieceSpec} :
    truncated spec = spec ↔
      cInt spec.index = spec.index ∧ cInt spec.offset = spec.offset ∧
        cInt spec.length = spec.length := by
  cases spec
  simp [truncated]

theorem map_truncated_eq_iff {specs : List PieceSpec} :
    specs.map truncated = specs ↔ ∀ spec ∈ specs, truncated spec = spec := by
  constructor
  · intro h spec hm
    obtain ⟨k, hk, rfl⟩ := List.getElem_of_mem hm
    have := congrArg (fun l => l[k]?) h
    simpa [hk] using this
  · intro h
    exact (List.map_congr_left h).trans (List.map_id _)

/-- The compiled tracker has the geometry of the pure one exactly when the piece length fits
`Py_ssize_t` and neither the offset of the last piece nor the length of the first one is changed
by the cast to `int`. -/
theorem geometry_agrees_iff {pieceLength totalLength : ℤ} {piecesRaw : Bytes} {t : Tracker}
    (h1 : 1 ≤ pieceLength) (h0 : 0 ≤ totalLength) (hbig : totalLength < 2 ^ 63)
    (ht : PieceTracker.init pieceLength totalLength piecesRaw = some t)
    (hcount : t.pieceCount < 2 ^ 31) :
    (∃ t', init pieceLength totalLength piecesRaw = .ok t' ∧ t'.pieceCount = t.pieceCount ∧
        t'.specs = t.specs) ↔
      pieceLength < 2 ^ 63 ∧ (t.pieceCount - 1) * pieceLength < 2 ^ 31 ∧
        min pieceLength totalLength < 2 ^ 31 := by
  have hspecs := PieceTracker.init_specs h1 h0 ht
  obtain ⟨hc0, hc1, hc2⟩ := PieceTracker.pieceCount_bounds h1 h0 ht
  have hmem : ∀ k : ℕ, k < t.pieceCount → specAt pieceLength totalLength piecesRaw k ∈ t.specs := by
    intro k hk
    rw [hspecs]
    exact List.mem_map_of_mem (List.mem_range.mpr (by omega))
  constructor
  · rintro ⟨t', hinit, -, heq⟩
    have hp : pieceLength < 2 ^ 63 := by
      by_contra hp
      have hover : ¬ Fits ssizeHalf pieceLength := by
        unfold Fits ssizeHalf
        omega
      rw [init, if_pos (Or.inl hover)] at hinit
      cases hinit
    obtain ⟨t'', hinit', -, htrunc⟩ := init_eq h1 hp h0 hbig ht hcount
    obtain rfl : t' = t'' := Except.ok.inj (hinit.symm.trans hinit')
    have hall := map_truncated_eq_iff.mp (htrunc.symm.trans heq)
    refine ⟨hp, ?_, ?_⟩
    · by_cases hzero : t.pieceCount = 0
      · rw [hzero]
        omega
      · obtain ⟨n, hn⟩ := Int.eq_ofNat_of_zero_le (show 0 ≤ t.pieceCount - 1 by omega)
        have hlast := (truncated_eq_iff.mp (hall _ (hmem n (by omega)))).2.1
        rw [hn]
        exact (cInt_eq_iff.mp hlast).2
    · by_cases hzero : t.pieceCount = 0
      · rw [hzero, zero_mul] at hc1
        omega
      · have hfirst := (truncated_eq_iff.mp (hall _ (hmem 0 (by omega)))).2.2
        have hlt := (cInt_eq_iff.mp hfirst).2
        simpa [specAt] using hlt
  · rintro ⟨hp, hlast, hfirst⟩
    obtain ⟨t', hinit, hpc, htrunc⟩ := init_eq h1 hp h0 hbig ht hcount
    refine ⟨t', hinit, hpc, ?_⟩
    rw [htrunc, map_truncated_eq_iff]
    intro spec hm
    rw [hspecs] at hm
    obtain ⟨k, hk, rfl⟩ := List.mem_map.mp hm
    have hk' : (k : ℤ) ≤ t.pieceCount - 1 := by
      have := List.mem_range.mp hk
      omega
    have hle := mul_le_mul_of_nonneg_right hk' (show 0 ≤ pieceLength by omega)
    have hnonneg : 0 ≤ (k : ℤ) * pieceLength := by positivity
    rw [truncated_eq_iff]
    refine ⟨cInt_eq_iff.mpr ?_, cInt_eq_iff.mpr ?_, cInt_eq_iff.mpr ?_⟩
    · simp only [specAt]
      omega
    · simp only [specAt]
      omega
    · simp only [specAt]
      omega

theorem geometry_agrees_small :
    ∃ t, PieceTracker.init 16384 40000 [] = some t ∧
      ∃ t', init 16384 40000 [] = .ok t' ∧ t'.pieceCount = t.pieceCount ∧ t'.specs = t.specs :=
  ⟨_, rfl, (geometry_agrees_iff (by decide) (by decide) (by decide) rfl (by decide)).mpr (by decide)⟩

/-- Pieces of 1 GiB: the third one is placed before the start of the torrent. -/
theorem geometry_diverges :
    ∃ t t', PieceTracker.init (2 ^ 30) (2 ^ 31 + 1) [] = some t ∧
      init (2 ^ 30) (2 ^ 31 + 1) [] = .ok t' ∧ t'.specs ≠ t.specs ∧
      t.specs[2]? = some ⟨2, 2 ^ 31, 1, []⟩ ∧ t'.specs[2]? = some ⟨2, -2 ^ 31, 1, []⟩ := by
  refine ⟨_, _, rfl, rfl, ?_, ?_, ?_⟩
  · decide
  · decide
  · decide

end PieceTrackerCompiled
